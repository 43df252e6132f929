import WeggliEnhance.RegexRules

/-!
# Parsing search patterns

`lib.rs`: a search pattern is parsed by tree-sitter, completed where a
semicolon or braces are missing, validated, and handed to the builder. What
tree-sitter knows of syntax errors is a parameter; colours are left out of
the messages.
-/

namespace WeggliEnhance.SearchPatterns

open SourceText SyntaxTree ThirdParty QueryTrees PatternBuilder RegexRules

/-- What tree-sitter knows of errors in a syntax tree. -/
structure ErrorFlags where
  /-- `node.has_error()`: the node holds an error somewhere. -/
  hasError : Node → Bool
  /-- `node.is_error()`. -/
  isError : Node → Bool
  /-- `node.is_missing()`. -/
  isMissing : Node → Bool

/-- `VALID_NODE_KINDS`: the supported root nodes. -/
def validNodeKinds : List String :=
  ["compound_statement", "function_definition", "struct_specifier", "enum_specifier",
    "union_specifier", "class_specifier"]

/-- `pattern_parse`. -/
def patternParse (externals : Externals) (source : String) : Except BuildError Node :=
  match externals.parse source with
  | some root => .ok root
  | none => .error .panic

mutual

/-- The cursor loop of `validate_query` on a node that holds an error. -/
def firstError (flags : ErrorFlags) : Node → Option Node
  | ⟨id, kind, isNamed, field, range, children⟩ =>
    if flags.isError ⟨id, kind, isNamed, field, range, children⟩ ||
        flags.isMissing ⟨id, kind, isNamed, field, range, children⟩ then
      some ⟨id, kind, isNamed, field, range, children⟩
    else firstErrorAmong flags children

/-- The cursor loop on a node and its later siblings. -/
def firstErrorAmong (flags : ErrorFlags) : List Node → Option Node
  | [] => none
  | node :: siblings =>
    if flags.hasError node then firstError flags node else firstErrorAmong flags siblings

end

/-- The message for a pattern with a syntax error. -/
def syntaxMessage (flags : ErrorFlags) (root : Node) (query : String) : String :=
  match firstError flags root with
  | none => "Error! Query parsing failed:"
  | some node =>
    "Error! Query parsing failed: " ++ slice query ⟨0, node.range.start⟩ ++
      (if flags.isMissing node then " [MISSING " ++ node.kind ++ " ] " else "") ++
      slice query node.range ++ slice query ⟨node.range.stop, utf8Len query.toList⟩

/-- `validate_query`: the cursor on the first child of the root, with the
root as its parent. -/
def validateQuery (flags : ErrorFlags) (root : Node) (query : String) (force : Bool) :
    Except BuildError (Option Node × Node) :=
  if flags.hasError root && !force then .error (.query (syntaxMessage flags root query))
  else if 1 < root.namedChildCount then
    .error (.query ("Error: '" ++ query ++ "' query contains multiple root nodes"))
  else
    let cursor := match root.child 0 with
      | some child => (some root, child)
      | none => (none, root)
    if validNodeKinds.contains cursor.2.kind then .ok cursor
    else .error (.query ("Error: '" ++ query ++ "' is not a supported query root node."))

/-- A pattern whose root holds an error gets the semicolon it may lack. -/
def addSemicolon (externals : Externals) (flags : ErrorFlags) (pattern : String) (root : Node) :
    Except BuildError (String × Node) :=
  if flags.hasError root && !endsWith pattern ';' then do
    let fixed ← patternParse externals (pattern ++ ";")
    return if flags.hasError fixed then (pattern, root) else (pattern ++ ";", fixed)
  else .ok (pattern, root)

/-- A pattern with an unsupported root gets the braces it may lack. -/
def addBraces (externals : Externals) (flags : ErrorFlags) (pattern : String) (root : Node) :
    Except BuildError (String × Node) :=
  if !flags.hasError root && (root.child 0).any (fun n => !validNodeKinds.contains n.kind) then do
    let fixed ← patternParse externals ("\x7b" ++ pattern ++ "\x7d")
    return if flags.hasError fixed then (pattern, root)
      else ("\x7b" ++ pattern ++ "\x7d", fixed)
  else .ok (pattern, root)

/-- `parse_search_pattern`. -/
def parseSearchPattern (externals : Externals) (flags : ErrorFlags) (pattern : String)
    (forceQuery : Bool) (regexConstraints : RegexMap) : Except BuildError QueryTree := do
  let tree ← patternParse externals pattern
  let (p, tree) ← addSemicolon externals flags pattern tree
  let (p, tree) ← addBraces externals flags p tree
  let (up, c) ← validateQuery flags tree p forceQuery
  buildQueryTree externals p up c regexConstraints

end WeggliEnhance.SearchPatterns
