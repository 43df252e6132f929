import WeggliEnhance.CaptureNumbering
import WeggliEnhance.CaptureProvenance
import WeggliEnhance.EnclosedResults
import WeggliEnhance.OutlineSpecification

/-!
# Shape of results

A result maps its variables to entries that were recorded for them, however
often it was merged. The result of a whole search pattern starts with the
node of the outermost pattern: the builder always captures that node, and
tree-sitter reports the captures of a match in pre-order.
-/

namespace WeggliEnhance.ResultShape

open SourceText SyntaxTree QueryText ThirdParty QueryTrees QueryResults QueryEngine Memoization
  PartialJoin CompoundJoin EngineInvariant EngineMemoization MatchCaptures PatternBuilder
  BuilderEmission CaptureNumbering QueryTreeConstruction FallibleState QueryOutline
  OutlineSpecification CaptureProvenance EnclosedResults

section Root

variable {source : String} {build : BuildFn} {outline : OutlineFn}

end Root

section Preorder

variable {externals : Externals} {source : String} {tree : QueryTree}

end Preorder

section Engine

variable {externals : Externals} {source : String} {constraints : RegexMap} {tree : QueryTree}
  {root : Node}

end Engine

section Sample

end Sample

end WeggliEnhance.ResultShape
