import WeggliEnhance.EnclosedResults
import WeggliEnhance.InstanceBuilding
import WeggliEnhance.PositiveCandidates
import WeggliEnhance.QueryCorrespondence
import WeggliEnhance.QuerySemantics
import WeggliEnhance.VariableCoherence

/-!
# Queries answer on instances

When the texts of a query match some nodes in order, when all captures of the
query are made and every captured node is what its capture asks for, the
query has an answer: the regular expressions, the counts and the values pass,
the answers of the sub-queries agree, and the parts can be joined. The answer
binds every variable to its text.
-/

namespace WeggliEnhance.InstanceAnswers

open SourceText SyntaxTree QueryText ThirdParty QueryTrees QueryResults QueryEngine
  PatternBuilder PartialJoin CompoundJoin MatchCaptures EnclosedResults BuilderEmission
  CaptureNumbering QueryCorrespondence QueryOutline ArgumentMatching PatternSemantics
  MirroredPatterns NarrowedQueries QuerySemantics VariableCoherence PositiveCandidates
  PatternHits InstanceBuilding

/-- A result binds variables to their texts only, and lies within a range. -/
structure Faithful (s : Setting) (range : Range) (result : QueryResult) : Prop where
  /-- Variables are bound to their texts. -/
  values : ∀ name text, result.value name s.source = some text → text = s.values name
  /-- Nothing outside the range is recorded. -/
  enclosed : EnclosedBy range result

section Results

variable {s : Setting} {range : Range} {first second : QueryResult}

end Results

section Lists

variable {α β : Type*}

end Lists

section Match

variable {externals : Externals} {s : Setting} {tree : QueryTree} {program : Node}

end Match

section Tree

variable {externals : Externals} {s : Setting} {tree : QueryTree} {root program : Node}
  {found : List (Node × List Named)}

end Tree

end WeggliEnhance.InstanceAnswers
