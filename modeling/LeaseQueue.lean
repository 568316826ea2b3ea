import LeaseQueue.Settings.Read
import LeaseQueue.Simulation.Session
import LeaseQueue.Proofs.Claims
import LeaseQueue.Proofs.RowHistory
import LeaseQueue.Proofs.Receipts
import LeaseQueue.Proofs.Redelivery
import LeaseQueue.Proofs.Grace
import LeaseQueue.Proofs.Incarnations
import LeaseQueue.Proofs.Selection
import LeaseQueue.Proofs.Conservation
import LeaseQueue.Proofs.Ordering
import LeaseQueue.Proofs.Allocations
import LeaseQueue.Proofs.Sparing
import LeaseQueue.Proofs.SharingOut
import LeaseQueue.Proofs.HandOuts
import LeaseQueue.Proofs.Workers
import LeaseQueue.Proofs.Tenants
import LeaseQueue.Proofs.Retirement
import LeaseQueue.Proofs.Termination
import LeaseQueue.Proofs.FirstDeliveries
import LeaseQueue.Proofs.ScanLimit
import LeaseQueue.Proofs.Retrying
import LeaseQueue.Proofs.RepairWait
import LeaseQueue.Proofs.Skipping
import LeaseQueue.Proofs.ReceiptText
import LeaseQueue.Proofs.Sealing
import LeaseQueue.Proofs.Conversions
import LeaseQueue.Proofs.AtomicMoves
