import MoToBuddy.Lib.Chain
import MoToBuddy.Lib.Mark
import MoToBuddy.Lib.Probe
import MoToBuddy.Evdd.ValueIntern
import MoToBuddy.Evdd.ValueAlgebra
import MoToBuddy.Evdd.Kernel
import MoToBuddy.Evdd.Op
import MoToBuddy.Evdd.Table
import MoToBuddy.Evdd.Makenode
import MoToBuddy.Evdd.Frame
import MoToBuddy.Evdd.Collect
import MoToBuddy.Lib.WTree
import MoToBuddy.Evdd.Unfold
import MoToBuddy.Evdd.Run
import MoToBuddy.Evdd.Rational
import MoToBuddy.Evdd.Session
import MoToBuddy.Evdd.Scale
import MoToBuddy.Evdd.Strategy
import MoToBuddy.Evdd.Adopt
import MoToBuddy.Mosf
import MoToBuddy.Evdd.Exact
import MoToBuddy.Bdd.Tag
import MoToBuddy.Lib.DTree
import MoToBuddy.Lib.Pool
import MoToBuddy.Bdd.Terminal
import MoToBuddy.Bdd.Kernel
import MoToBuddy.Bdd.Table
import MoToBuddy.Bdd.Makenode
import MoToBuddy.Bdd.Reads
import MoToBuddy.Bdd.Contract
import MoToBuddy.Bdd.Operators
import MoToBuddy.Bdd.Recursion
import MoToBuddy.Bdd.Apply
import MoToBuddy.Bdd.Setup
import MoToBuddy.Bdd.Quant
import MoToBuddy.Bdd.Session
import MoToBuddy.Bdd.Maketerminal
import MoToBuddy.Bdd.Plain
import MoToBuddy.Bdd.Mtbdd
import MoToBuddy.Bdd.Unique
import MoToBuddy.Bdd.Exhaust
import MoToBuddy.Bdd.Steps
import MoToBuddy.Bdd.Ite
import MoToBuddy.Bdd.Noderesize
import MoToBuddy.MosfLoop
import MoToBuddy.Mosf.Parser
import MoToBuddy.Mosf.Defs
import MoToBuddy.Lib.Jump
import MoToBuddy.Lib.Yields
import MoToBuddy.Bdd.Stack
import MoToBuddy.Bdd.Globals
import MoToBuddy.Bdd.Restart
import MoToBuddy.Bdd.Sections
import MoToBuddy.Bdd.MtbddCode
import MoToBuddy.Bdd.Unfolds
import MoToBuddy.Bdd.Traverse
import MoToBuddy.Bdd.Lockstep
import MoToBuddy.Bdd.LockstepEnds
import MoToBuddy.Bdd.Acts
import MoToBuddy.Bdd.OneSided
import MoToBuddy.Bdd.Collapse
import MoToBuddy.Bdd.Programs
import MoToBuddy.Bdd.Combinators
import MoToBuddy.Bdd.Quiet
import MoToBuddy.Bdd.Switch
import MoToBuddy.Bdd.Exits
import MoToBuddy.Bdd.Nesting
import MoToBuddy.Lib.Bits
import MoToBuddy.Lib.Runs
import MoToBuddy.Bvec.Holds
import MoToBuddy.Bvec.Arith
import MoToBuddy.Bvec.Div
import MoToBuddy.Bvec.Mulfixed
import MoToBuddy.Bvec.Divfixed
import MoToBuddy.Bvec.Shift
import MoToBuddy.Tree.Varblock
import MoToBuddy.Bdd.Count
import MoToBuddy.Evdd.Cells
import MoToBuddy.Lib.Cofactor
import MoToBuddy.Lib.Parity
import MoToBuddy.Lib.Rename
import MoToBuddy.Bdd.Memo
import MoToBuddy.Bdd.Cofactor
import MoToBuddy.Bdd.Parity
import MoToBuddy.Bdd.Replace
import MoToBuddy.Bdd.Full
import MoToBuddy.Bdd.Survive
import MoToBuddy.Bdd.Pairs
import MoToBuddy.Bdd.Package
import MoToBuddy.Bdd.PackageRun
import MoToBuddy.Bdd.CofactorLaws
import MoToBuddy.Bdd.UniqueLaws
import MoToBuddy.Bdd.Substitution
import MoToBuddy.Bdd.SubstitutionLaws
import MoToBuddy.Bdd.Allsat
import MoToBuddy.Bdd.SatcountLaws
import MoToBuddy.Bdd.Varset
import MoToBuddy.Bdd.Satone
import MoToBuddy.Reorder.SiftLaws
import MoToBuddy.Fdd.Session
import MoToBuddy.Prime.Requests
import MoToBuddy.Bddio.LoadhashMap
import MoToBuddy.Bddio.RoundTrip
import MoToBuddy.Evdd.Factor
import MoToBuddy.Evdd.Canonical
import MoToBuddy.Evdd.Eager
import MoToBuddy.Lib.Interleave
import MoToBuddy.Lib.Powering
import MoToBuddy.Lib.While
import MoToBuddy.Prime.Arith
import MoToBuddy.Prime.Search
import MoToBuddy.Reorder.Blockdown
import MoToBuddy.Reorder.InStep
import MoToBuddy.Reorder.Window
