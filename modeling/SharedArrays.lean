import SharedArrays.Window
import SharedArrays.Double
import SharedArrays.Builtin
import SharedArrays.Failure
import SharedArrays.Settings
import SharedArrays.Text.Blank
import SharedArrays.Text.Decimal
import SharedArrays.Value.Basic
import SharedArrays.Value.Handles
import SharedArrays.Value.Equality
import SharedArrays.Value.Text
import SharedArrays.Arr.Write
import SharedArrays.Arr.Freeze
import SharedArrays.Arr.Storage
import SharedArrays.Arr.Read
import SharedArrays.Dict.Basic
import SharedArrays.Dict.Merge
import SharedArrays.Operators
import SharedArrays.Amend.Selection
import SharedArrays.Amend.Steps
import SharedArrays.Amend.Loops
import SharedArrays.Amend.Container
import SharedArrays.Amend.Path
import SharedArrays.Call
import SharedArrays.Interface
import SharedArrays.Session.Term
import SharedArrays.Session.Command
import SharedArrays.Session.Step
import SharedArrays.Proofs.WellFormed.Call
import SharedArrays.Proofs.Alike.Amend
import SharedArrays.Proofs.Alike.Commands
import SharedArrays.Proofs.Descent
import SharedArrays.Proofs.FlatFold
import SharedArrays.Proofs.Store.Amend
import SharedArrays.Proofs.Store.Call
import SharedArrays.Proofs.Store.Commands
import SharedArrays.Proofs.Store.Reading
import SharedArrays.Proofs.Store.Session
import SharedArrays.Proofs.WellFormed.Session
import SharedArrays.Proofs.Representation
import SharedArrays.Proofs.Canonical.Amend
import SharedArrays.Proofs.Guarded.Call
import SharedArrays.Proofs.Origin.Calls
import SharedArrays.Proofs.Equality
import SharedArrays.Proofs.Lookup
import SharedArrays.Proofs.Keyed
import SharedArrays.Proofs.Merge
import SharedArrays.Proofs.Upsert
import SharedArrays.Proofs.Rejection
import SharedArrays.Proofs.Freeze.Session
import SharedArrays.Proofs.InPlace
import SharedArrays.Proofs.Shortcuts
import SharedArrays.Proofs.Commute
import SharedArrays.Proofs.Places
import SharedArrays.Proofs.Twins.Operators
import SharedArrays.Proofs.Renaming.Sites
import SharedArrays.Proofs.Renaming.Descent
import SharedArrays.Proofs.IndexStorage
import SharedArrays.Proofs.Flags.Session
import SharedArrays.Proofs.Projection
import SharedArrays.Proofs.Canonical.Lossless
import SharedArrays.Proofs.Freeze.Adoption
import SharedArrays.Proofs.Alike.Operators
import SharedArrays.Proofs.Alike.Calls
import SharedArrays.Proofs.Pervasive
import SharedArrays.Proofs.Alike.Merge
import SharedArrays.Proofs.Concatenation
import SharedArrays.Proofs.Writing
import SharedArrays.Proofs.Wraps
