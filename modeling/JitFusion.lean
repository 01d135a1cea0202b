import JitFusion.ArtifactAlloc
import JitFusion.BitmapFilter
import JitFusion.BuildReset
import JitFusion.BuilderReuse
import JitFusion.Canonicalizer
import JitFusion.Concatenation
import JitFusion.ConstantLists
import JitFusion.ContextReuse
import JitFusion.Dsu
import JitFusion.EngineArtifacts
import JitFusion.GroupAccess
import JitFusion.Inlining
import JitFusion.IntegerLiterals
import JitFusion.IntegerUndefined
import JitFusion.LetRule
import JitFusion.Median
import JitFusion.NameResolution
import JitFusion.PipelineOrder
import JitFusion.Registration
import JitFusion.SimdKernels
import JitFusion.SortedSearch
import JitFusion.Soundness
import JitFusion.SymbolNames
import JitFusion.SyntaxErrors
import JitFusion.WhenChains
import JitFusion.WhenPhis
