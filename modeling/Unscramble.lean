import Unscramble.Analysis.Basic
import Unscramble.Analysis.Flow
import Unscramble.Archive.Checksum
import Unscramble.Archive.Directory
import Unscramble.Archive.EndRecord
import Unscramble.Archive.EntryText
import Unscramble.Archive.Extra
import Unscramble.Archive.Inflate
import Unscramble.Archive.Offset
import Unscramble.Archive.Zip
import Unscramble.BlockGraph
import Unscramble.Class.Basic
import Unscramble.Class.Hierarchy
import Unscramble.Class.Pool
import Unscramble.ClassFile.Bytes
import Unscramble.ClassFile.Code
import Unscramble.ClassFile.ConstantPool
import Unscramble.ClassFile.Decode
import Unscramble.ClassFile.Encode
import Unscramble.ClassFile.Layout
import Unscramble.ClassFile.ModifiedUtf8
import Unscramble.ClassFile.PoolBuilder
import Unscramble.Cleanup.DeadCode
import Unscramble.Cleanup.FieldOwner
import Unscramble.Cleanup.FieldRelocation
import Unscramble.Cleanup.Guards
import Unscramble.Cleanup.Handlers
import Unscramble.Cleanup.Layout
import Unscramble.Cleanup.Limits
import Unscramble.Cleanup.MemberOrder
import Unscramble.Cleanup.Renaming
import Unscramble.Cleanup.TrailingInts
import Unscramble.Cleanup.Unused
import Unscramble.Descriptor.Basic
import Unscramble.Descriptor.Parser
import Unscramble.Descriptor.Query
import Unscramble.Domain.Exprs
import Unscramble.Domain.Kinds
import Unscramble.Domain.Origins
import Unscramble.FileSystem
import Unscramble.Frame.Basic
import Unscramble.Frame.Effect
import Unscramble.Frame.Kind
import Unscramble.Instr.Basic
import Unscramble.Instr.Describe
import Unscramble.Job
import Unscramble.Library
import Unscramble.Log
import Unscramble.Main
import Unscramble.Multiplier.Cancel
import Unscramble.Multiplier.Fold
import Unscramble.Multiplier.Remove
import Unscramble.Multiplier.Scan
import Unscramble.Multiplier.System
import Unscramble.Number
import Unscramble.Opcode
import Unscramble.Pass
import Unscramble.Plan
import Unscramble.Report
import Unscramble.Source
import Unscramble.Text.JsonString
import Unscramble.Text.Printable
import Unscramble.Text.Quoted
import Unscramble.Text.Utf8
import Unscramble.Total
import Unscramble.Walk
import Unscramble.Proofs.FrameOrder
import Unscramble.Proofs.Flow
import Unscramble.Proofs.DomainLaws
import Unscramble.Proofs.Fixpoint
import Unscramble.Proofs.Blocks
import Unscramble.Proofs.CancelLayout
import Unscramble.Proofs.Inverse
import Unscramble.Proofs.Encoding
import Unscramble.Proofs.CancelSimulation
import Unscramble.Proofs.Execution
import Unscramble.Proofs.FoldParts
import Unscramble.Proofs.AnalysisSteps
import Unscramble.Proofs.Arithmetic
import Unscramble.Proofs.FoldStacks
import Unscramble.Proofs.FoldSimulation
import Unscramble.Proofs.Interning
import Unscramble.Proofs.ModifiedText
import Unscramble.Proofs.PoolReading
import Unscramble.Proofs.InstrReading
import Unscramble.Proofs.Dispatch
import Unscramble.Proofs.Solving
import Unscramble.Proofs.Reordering
import Unscramble.Proofs.Linking
import Unscramble.Proofs.ClassReading
import Unscramble.Proofs.Settling
import Unscramble.Proofs.DescriptorNames
import Unscramble.Proofs.NewNames
import Unscramble.Proofs.Overriding
import Unscramble.Proofs.Labels
import Unscramble.Proofs.Makers
import Unscramble.Proofs.Pruning
import Unscramble.Proofs.LabelEncoding
import Unscramble.Proofs.CodePasses
import Unscramble.Proofs.FieldLookup
import Unscramble.Proofs.FieldMoves
import Unscramble.Proofs.FieldLinks
import Unscramble.Proofs.Reencoding
import Unscramble.Proofs.EffectShapes
import Unscramble.Proofs.EncodedFields
import Unscramble.Proofs.MultiplierRemoval
import Unscramble.Proofs.InputFile
import Unscramble.Proofs.Traversals
import Unscramble.Proofs.RedundantGotos
import Unscramble.Proofs.DeadCodeRemoval
import Unscramble.Proofs.StackLimits
import Unscramble.Proofs.Shortening
import Unscramble.Proofs.JumpRemoval
import Unscramble.Proofs.GuardLayout
import Unscramble.Proofs.GuardPaths
import Unscramble.Proofs.GuardRemoval
import Unscramble.Proofs.UnusedMethods
import Unscramble.Proofs.HandlerRemoval
import Unscramble.Proofs.CodeScanning
import Unscramble.Proofs.FieldRelocations
import Unscramble.Proofs.CodeReading
import Unscramble.Proofs.Residues
import Unscramble.Proofs.SmallMultiples
import Unscramble.Proofs.Finding
import Unscramble.Proofs.PoolRequests
import Unscramble.Proofs.RelatedFrames
import Unscramble.Proofs.Meanings
import Unscramble.Proofs.SymbolicFrames
import Unscramble.Proofs.StoreKinds
import Unscramble.Proofs.SymbolicRuns
import Unscramble.Proofs.EuclidLoop
import Unscramble.Proofs.StackWords
import Unscramble.Proofs.VisitBudget
import Unscramble.Proofs.WidenedReads
import Unscramble.Proofs.DescriptorReading
import Unscramble.Proofs.DroppedParameters
import Unscramble.Proofs.MappedNames
import Unscramble.Proofs.EmittedCode
import Unscramble.Proofs.ProductTrees
import Unscramble.Proofs.FoldedValues
import Unscramble.Proofs.HierarchyWalks
import Unscramble.Proofs.SelfInverses
import Unscramble.Proofs.PairedSlots
import Unscramble.Proofs.StandardText
