import MeleeHarness.Checkdiff.PassSound
import MeleeHarness.Diagnose.DiffLines
import MeleeHarness.Objdiff.Cascade
import MeleeHarness.Objdiff.ScoreSound
import MeleeHarness.Permute.AnchorSound
import MeleeHarness.Permute.Report
import MeleeHarness.Permute.TraceSound
import MeleeHarness.Lib.Splice
import MeleeHarness.Permute.Edits
import MeleeHarness.Permute.Revert
import MeleeHarness.Permute.DropCasts
import MeleeHarness.Permute.Overshoot
import MeleeHarness.Lib.Pipe
import MeleeHarness.Permute.ScoreServer
import MeleeHarness.NinjaCompile.CompileBatch
import MeleeHarness.Lib.C.Semantics
import MeleeHarness.Lib.C.Agree
import MeleeHarness.Lib.C.Call
import MeleeHarness.SrcMutate.Tree
import MeleeHarness.SrcMutate.Inline
import MeleeHarness.Lib.C.Simulate
import MeleeHarness.Lib.C.Sequence
import MeleeHarness.SrcMutate.ManualInline
import MeleeHarness.Lib.C.Grammar
import MeleeHarness.Lib.C.Parse
import MeleeHarness.Lib.C.Layout
import MeleeHarness.Lib.C.Integers
import MeleeHarness.SrcMutate.Operators
import MeleeHarness.Lib.C.Evaluate
import MeleeHarness.SrcMutate.Conditions
import MeleeHarness.SrcMutate.StructRef
import MeleeHarness.Lib.C.Outcome
import MeleeHarness.Lib.C.Execute
import MeleeHarness.Lib.C.Value
import MeleeHarness.Lib.C.Store
import MeleeHarness.SrcMutate.FoldAssignment
import MeleeHarness.InferStruct.Render
import MeleeHarness.InferStruct.Trace
import MeleeHarness.MwccDump.Stack
import MeleeHarness.Lib.Regex
import MeleeHarness.Sdata2Order.Install
import MeleeHarness.Diagnose.Braces
import MeleeHarness.Diagnose.SourceLines
import MeleeHarness.SrcMutate.GobjAccessor
import MeleeHarness.Lib.SyntaxTree
import MeleeHarness.Lib.Reach
import MeleeHarness.SrcMutate.ParseTree
import MeleeHarness.SrcMutate.MultiInline
import MeleeHarness.SrcMutate.ReorderTree
import MeleeHarness.SrcMutate.ReorderParams
import MeleeHarness.Diagnose.ScheduledBlocks
import MeleeHarness.Diagnose.BlockGraph
import MeleeHarness.Diagnose.ListBlocks
import MeleeHarness.Checkdiff.Collapse
import MeleeHarness.Lib.Shlex
import MeleeHarness.TypeOracle.ClangFlags
import MeleeHarness.SrcMutate.PrefixSplit
import MeleeHarness.Lib.Utf8
import MeleeHarness.NinjaCompile.TempSource
import MeleeHarness.MwccDump.Rederivations
import MeleeHarness.NinjaCompile.BuildEdge
import MeleeHarness.MwccDump.BuildBlock
import MeleeHarness.Lib.UnifiedDiff
import MeleeHarness.Permute.UnifiedDiff
import MeleeHarness.Objdiff.Breakdown
import MeleeHarness.Lib.ByteLines
import MeleeHarness.SrcMutate.PragmaWrap
import MeleeHarness.FixIncludes.Insert
import MeleeHarness.Sdata2Order.Mismatch
import MeleeHarness.Lib.Template
import MeleeHarness.Decomp.Write
import MeleeHarness.Lib.Newlines
import MeleeHarness.GenItemStateTable.InsertPosition
import MeleeHarness.Lib.Dominators
import MeleeHarness.Lib.Explore
import MeleeHarness.M2c.FlowGraph
import MeleeHarness.M2c.Loops
import MeleeHarness.M2c.Reducible
import MeleeHarness.M2c.UseDef
import MeleeHarness.Objdiff.DataDiff
import MeleeHarness.Objdiff.DataReloc
import MeleeHarness.Lib.Decimal
import MeleeHarness.Sdata2Order.Literal
import MeleeHarness.Lib.ByteOrder
import MeleeHarness.Objdiff.SplitMeta
import MeleeHarness.Wibo.CommandLine
import MeleeHarness.Wibo.HandleRuns
import MeleeHarness.Wibo.Objects
