import ChainedTable.Arena.Valid
import ChainedTable.Blueprint
import ChainedTable.Hash.Elementary
import ChainedTable.Request
import ChainedTable.Storage.CopyRule
import ChainedTable.Sweep
import ChainedTable.Walk.Script
import ChainedTable.Proofs.Snapshot
import ChainedTable.Proofs.Checked
import ChainedTable.Proofs.Intact
import ChainedTable.Proofs.FiniteMap
import ChainedTable.Proofs.Contract
import ChainedTable.Proofs.Accounts
import ChainedTable.Proofs.Ownership
import ChainedTable.Proofs.Effects
import ChainedTable.Proofs.DensityRule
import ChainedTable.Proofs.Band
import ChainedTable.Proofs.OneStep
import ChainedTable.Proofs.Distinct
import ChainedTable.Proofs.Refusals
import ChainedTable.Proofs.Granted
import ChainedTable.Proofs.Drift
import ChainedTable.Proofs.Recovery
import ChainedTable.Proofs.Hysteresis
import ChainedTable.Proofs.BulkRemoval
import ChainedTable.Proofs.Views
import ChainedTable.Proofs.Mirror
import ChainedTable.Proofs.Independence
import ChainedTable.Proofs.Regrouping
import ChainedTable.Proofs.Settling
import ChainedTable.Proofs.Notices
import ChainedTable.Proofs.Chronicle
import ChainedTable.Proofs.Ascent
import ChainedTable.Proofs.Moments
import ChainedTable.Proofs.WalkReads
import ChainedTable.Proofs.SamePaths
import ChainedTable.Proofs.Inquiries
import ChainedTable.Proofs.Peak
import ChainedTable.Proofs.Mixing
import ChainedTable.Proofs.Folding
import ChainedTable.Proofs.Locality
