import Mathlib.Data.List.Chain
import WeggliEnhance.QueryOutline

/-!
# The grammar of query text

Query text is a sequence of lexemes: brackets, quoted strings, names, captures
and dots. It can be read when its brackets are balanced, every string ends
where it should, names are words, every field name is followed by a pattern,
every capture follows one, and a parenthesis without a name opens a sequence
that starts with a bracket or a string. On the items of the builder this is a
condition on neighbouring items.
-/

namespace WeggliEnhance.QueryGrammar

open SourceText QueryText QueryOutline

/-- One lexeme of query text. -/
inductive Lexeme where
  /-- A parenthesis followed by a node kind or by an underscore. -/
  | openNode (kind : String)
  /-- A parenthesis that opens a sequence. -/
  | openGroup
  /-- A parenthesis followed by the name of the equality predicate. -/
  | openPredicate
  /-- A closing parenthesis. -/
  | close
  /-- A bracket that opens a list of alternatives. -/
  | openBracket
  /-- A closing bracket. -/
  | closeBracket
  /-- A string with everything that is written between its quotes. -/
  | quoted (content : String)
  /-- The underscore that matches any node. -/
  | wildcard
  /-- A field name with its colon. -/
  | field (name : String)
  /-- The dot that anchors siblings. -/
  | anchor
  /-- A capture behind a pattern. -/
  | capture (name : String)
  /-- A capture as argument of a predicate. -/
  | reference (name : String)
  deriving DecidableEq

/-- The characters of a lexeme. -/
def Lexeme.chars : Lexeme → List Char
  | .openNode kind => '(' :: kind.toList
  | .openGroup => ['(']
  | .openPredicate => ['(', '#', 'e', 'q', '?']
  | .close => [')']
  | .openBracket => ['[']
  | .closeBracket => [']']
  | .quoted content => '"' :: (content.toList ++ ['"'])
  | .wildcard => ['_']
  | .field name => name.toList ++ [':']
  | .anchor => ['.']
  | .capture name => '@' :: name.toList
  | .reference name => '@' :: name.toList

/-- The text of a sequence of lexemes, separated by blanks. -/
def spell (text : List Lexeme) : List Char := text.flatMap fun lexeme => lexeme.chars ++ [' ']

/-- Where a reader of query text stands. -/
inductive Mode where
  /-- Between strings. -/
  | outside
  /-- In a string. -/
  | inside
  /-- In a string, behind a backslash. -/
  | escaped
  deriving DecidableEq

/-- Read a text with the brackets that are still open: every bracket is closed
by one of its kind and every string is closed on its line. -/
def scan : List Char → Mode → List Char → Bool
  | pending, mode, [] => pending.isEmpty && mode == .outside
  | pending, .outside, char :: rest =>
    if char = '(' then scan (')' :: pending) .outside rest
    else if char = '[' then scan (']' :: pending) .outside rest
    else if char = ')' ∨ char = ']' then
      pending.head? == some char && scan pending.tail .outside rest
    else if char = '"' then scan pending .inside rest
    else scan pending .outside rest
  | pending, .inside, char :: rest =>
    if char = '"' then scan pending .outside rest
    else if char = '\\' then scan pending .escaped rest
    else if char = '\n' then false
    else scan pending .inside rest
  | pending, .escaped, _ :: rest => scan pending .inside rest

/-- Text between quotes in which every quote is escaped. -/
def isEscaped : List Char → Bool
  | [] => true
  | '\\' :: _ :: rest => isEscaped rest
  | char :: rest => char != '"' && char != '\n' && char != '\\' && isEscaped rest

/-- A name that is read as one name. -/
def isWord (name : String) : Bool :=
  name.toList != [] && name.toList.all fun char => char.isAlphanum || char == '_'

/-- Strings are escaped and names are words. -/
def Lexeme.isSpelled : Lexeme → Bool
  | .openNode kind => isWord kind
  | .quoted content => isEscaped content.toList
  | .field name => isWord name
  | .capture name => isWord name
  | .reference name => isWord name
  | _ => true

/-- A lexeme that can start a pattern behind a parenthesis. -/
def Lexeme.isBracketed : Lexeme → Bool
  | .openNode _ => true
  | .openGroup => true
  | .openBracket => true
  | .quoted _ => true
  | _ => false

/-- A lexeme that can start a pattern. -/
def Lexeme.startsPattern (lexeme : Lexeme) : Bool :=
  lexeme.isBracketed || lexeme == .wildcard

/-- A lexeme that a capture can follow: the end of a pattern or a capture. -/
def Lexeme.isSettled : Lexeme → Bool
  | .close => true
  | .closeBracket => true
  | .quoted _ => true
  | .wildcard => true
  | .capture _ => true
  | _ => false

/-- Two lexemes that can be neighbours. -/
def follows (first second : Lexeme) : Bool :=
  match first with
  | .field _ => second.startsPattern
  | .openGroup => second.isBracketed
  | _ =>
    match second with
    | .capture _ => first.isSettled
    | _ => true

/-- Well-formed query text. A whole text is read like a list of alternatives. -/
structure WellFormedText (text : List Lexeme) : Prop where
  /-- Brackets are balanced and strings are closed. -/
  closed : scan [] .outside (spell text) = true
  /-- Quotes in strings are escaped and names are words. -/
  spelled : ∀ lexeme ∈ text, lexeme.isSpelled = true
  /-- Every field is followed by a pattern and every capture follows one. -/
  adjacent : List.IsChain (fun first second => follows first second = true)
    (.openBracket :: text ++ [.closeBracket])

/-- The lexemes of a capture suffix or a predicate. -/
def Tag.lexemes : Tag → List Lexeme
  | .capture name => [.capture name]
  | .eqString name text => [.openPredicate, .reference name, .quoted text, .close]
  | .eqCapture first second => [.openPredicate, .reference first, .reference second, .close]

mutual

/-- The lexemes of an item. -/
def Item.lexemes : Item → List Lexeme
  | .token kind => [.quoted kind]
  | .wildcard => [.wildcard]
  | .node kind items => .openNode kind :: (lexemesOf items ++ [.close])
  | .group items => .openGroup :: (lexemesOf items ++ [.close])
  | .alternation items => .openBracket :: (lexemesOf items ++ [.closeBracket])
  | .fieldName name => [.field name]
  | .anchor => [.anchor]
  | .tag tag => Tag.lexemes tag

/-- The lexemes of a sequence of items. -/
def lexemesOf : List Item → List Lexeme
  | [] => []
  | item :: items => Item.lexemes item ++ lexemesOf items

end

/-- The first lexeme of an item. -/
def Item.first : Item → Lexeme
  | .token kind => .quoted kind
  | .wildcard => .wildcard
  | .node kind _ => .openNode kind
  | .group _ => .openGroup
  | .alternation _ => .openBracket
  | .fieldName name => .field name
  | .anchor => .anchor
  | .tag (.capture name) => .capture name
  | .tag _ => .openPredicate

/-- The last lexeme of an item. -/
def Item.last : Item → Lexeme
  | .token kind => .quoted kind
  | .wildcard => .wildcard
  | .node _ _ => .close
  | .group _ => .close
  | .alternation _ => .closeBracket
  | .fieldName name => .field name
  | .anchor => .anchor
  | .tag (.capture name) => .capture name
  | .tag _ => .close

/-- The names and strings of a tag can be read. -/
def Tag.Fits (tag : Tag) : Prop := ∀ lexeme ∈ Tag.lexemes tag, lexeme.isSpelled = true

mutual

/-- An item whose text can be read. -/
def Item.Fits : Item → Prop
  | .token kind => isEscaped kind.toList = true
  | .wildcard => True
  | .node kind items => isWord kind = true ∧ FitsBetween (.openNode kind) items .close
  | .group items => FitsBetween .openGroup items .close
  | .alternation items => FitsBetween .openBracket items .closeBracket
  | .fieldName name => isWord name = true
  | .anchor => True
  | .tag tag => Tag.Fits tag

/-- A sequence of items that can be read between two lexemes. -/
def FitsBetween : Lexeme → List Item → Lexeme → Prop
  | first, [], second => follows first second = true
  | first, item :: items, second =>
    follows first (Item.first item) = true ∧ Item.Fits item ∧
      FitsBetween (Item.last item) items second

end

section Lexemes

/-- Neighbours fit and every lexeme is spelled correctly. -/
def Sound (text : List Lexeme) : Prop :=
  List.IsChain (fun first second => follows first second = true) text ∧
    ∀ lexeme ∈ text, lexeme.isSpelled = true

theorem sound_cons {first second : Lexeme} {text : List Lexeme} :
    Sound (first :: second :: text) ↔
      follows first second = true ∧ first.isSpelled = true ∧ Sound (second :: text) := by
  unfold Sound
  rw [List.isChain_cons_cons, List.forall_mem_cons]
  tauto

theorem sound_split {left right : List Lexeme} {middle : Lexeme} :
    Sound (left ++ middle :: right) ↔ Sound (left ++ [middle]) ∧ Sound (middle :: right) := by
  unfold Sound
  rw [List.isChain_split]
  simp only [List.mem_append, List.mem_cons, List.not_mem_nil, or_false]
  constructor
  · rintro ⟨⟨hleft, hright⟩, hall⟩
    exact ⟨⟨hleft, fun l hl => hall l (by tauto)⟩, hright, fun l hl => hall l (by tauto)⟩
  · rintro ⟨⟨hleft, hall⟩, hright, hall'⟩
    exact ⟨⟨hleft, hright⟩, fun l hl => by
      obtain hl | hl := hl
      · exact hall l (.inl hl)
      · exact hall' l hl⟩

theorem sound_single {first lexeme : Lexeme} {rest : List Lexeme} {fits : Prop}
    (hfits : lexeme.isSpelled = true ↔ fits) :
    Sound (first :: lexeme :: rest) ↔
      (follows first lexeme = true ∧ first.isSpelled = true ∧ fits) ∧ Sound (lexeme :: rest) := by
  rw [sound_cons, ← hfits]
  unfold Sound
  simp only [List.forall_mem_cons]
  tauto

theorem sound_bracket {first opening closing : Lexeme} {items : List Item} {rest : List Lexeme}
    {fits : Prop} (hclosing : closing.isSpelled = true)
    (hfits : opening.isSpelled = true ∧ FitsBetween opening items closing ↔ fits)
    (hitems : Sound (opening :: (lexemesOf items ++ [closing])) ↔
      opening.isSpelled = true ∧ FitsBetween opening items closing ∧ closing.isSpelled = true) :
    Sound (first :: opening :: (lexemesOf items ++ [closing] ++ rest)) ↔
      (follows first opening = true ∧ first.isSpelled = true ∧ fits) ∧
        Sound (closing :: rest) := by
  rw [sound_cons, List.append_assoc, List.singleton_append, ← List.cons_append, sound_split,
    List.cons_append, hitems, ← hfits]
  tauto

theorem sound_tag (tag : Tag) {first : Lexeme} {rest : List Lexeme} :
    Sound (first :: (Tag.lexemes tag ++ rest)) ↔
      (follows first (Item.first (.tag tag)) = true ∧ first.isSpelled = true ∧ Tag.Fits tag) ∧
        Sound (Item.last (.tag tag) :: rest) := by
  cases tag with
  | capture name => exact sound_single (by simp [Tag.Fits, Tag.lexemes])
  | eqString name text =>
    simp only [Tag.lexemes, Tag.Fits, Item.first, Item.last, List.cons_append, List.nil_append,
      sound_cons, follows, List.forall_mem_cons, Lexeme.isSpelled]
    simp
    tauto
  | eqCapture left right =>
    simp only [Tag.lexemes, Tag.Fits, Item.first, Item.last, List.cons_append, List.nil_append,
      sound_cons, follows, List.forall_mem_cons, Lexeme.isSpelled]
    simp
    tauto

mutual

/-- The text of an item between a lexeme and the rest of the text. -/
theorem sound_item (item : Item) (first : Lexeme) (rest : List Lexeme) :
    Sound (first :: (Item.lexemes item ++ rest)) ↔
      (follows first (Item.first item) = true ∧ first.isSpelled = true ∧ Item.Fits item) ∧
        Sound (Item.last item :: rest) := by
  cases item with
  | token kind => exact sound_single Iff.rfl
  | wildcard => exact sound_single (iff_true_intro rfl)
  | node kind items => exact sound_bracket rfl Iff.rfl (sound_items items (.openNode kind) .close)
  | group items =>
    exact sound_bracket rfl (and_iff_right rfl) (sound_items items .openGroup .close)
  | alternation items =>
    exact sound_bracket rfl (and_iff_right rfl) (sound_items items .openBracket .closeBracket)
  | fieldName name => exact sound_single Iff.rfl
  | anchor => exact sound_single (iff_true_intro rfl)
  | tag tag => exact sound_tag tag

/-- The text of a sequence of items between two lexemes. -/
theorem sound_items (items : List Item) (first second : Lexeme) :
    Sound (first :: (lexemesOf items ++ [second])) ↔
      first.isSpelled = true ∧ FitsBetween first items second ∧ second.isSpelled = true := by
  cases items with
  | nil =>
    rw [lexemesOf, FitsBetween, List.nil_append, sound_cons]
    unfold Sound
    simp
    tauto
  | cons item items =>
    have hitem := sound_item item first (lexemesOf items ++ [second])
    rw [lexemesOf, List.append_assoc, hitem, sound_items items, FitsBetween]
    have hlast : Item.Fits item → (Item.last item).isSpelled = true := by
      intro hfits
      cases item with
      | token kind => exact hfits
      | fieldName name => exact hfits
      | tag tag =>
        cases tag with
        | capture name => exact hfits _ (List.mem_singleton_self _)
        | eqString name text => rfl
        | eqCapture left right => rfl
      | _ => rfl
    tauto

end

end Lexemes

section Scan

/-- A character that means nothing to the reader outside of strings. -/
def isNeutral (char : Char) : Bool :=
  char != '(' && char != ')' && char != '[' && char != ']' && char != '"'

theorem scan_neutral {chars : List Char} (h : ∀ char ∈ chars, isNeutral char = true)
    (pending rest : List Char) :
    scan pending .outside (chars ++ rest) = scan pending .outside rest := by
  induction chars with
  | nil => rfl
  | cons char chars ih =>
    obtain ⟨hchar, hrest⟩ := List.forall_mem_cons.mp h
    have hne : char ≠ '(' ∧ char ≠ '[' ∧ ¬(char = ')' ∨ char = ']') ∧ char ≠ '"' := by
      simp only [isNeutral, Bool.and_eq_true, bne_iff_ne] at hchar
      tauto
    rw [List.cons_append, scan, if_neg hne.1, if_neg hne.2.1, if_neg hne.2.2.1, if_neg hne.2.2.2,
      ih hrest]

/-- A character of a word means nothing. -/
theorem isNeutral_of_isWord {name : String} (h : isWord name = true) :
    ∀ char ∈ name.toList, isNeutral char = true := by
  intro char hchar
  have hword : (char.isAlphanum || char == '_') = true :=
    List.all_eq_true.mp (Bool.and_eq_true_iff.mp h).2 char hchar
  have hspecial : ∀ special : Char, (special.isAlphanum || special == '_') = false →
      char ≠ special := by
    rintro special hspecial rfl
    rw [hword] at hspecial
    cases hspecial
  simp only [isNeutral, Bool.and_eq_true, bne_iff_ne]
  exact ⟨⟨⟨⟨hspecial _ (by decide), hspecial _ (by decide)⟩, hspecial _ (by decide)⟩,
    hspecial _ (by decide)⟩, hspecial _ (by decide)⟩

/-- A string with escaped quotes ends at its last quote. -/
theorem scan_escaped {content : List Char} (h : isEscaped content = true)
    (pending rest : List Char) :
    scan pending .inside (content ++ '"' :: rest) = scan pending .outside rest := by
  fun_induction isEscaped content with
  | case1 => rw [List.nil_append, scan, if_pos rfl]
  | case2 char content ih =>
    rw [List.cons_append, List.cons_append, scan, if_neg (by decide), if_pos rfl, scan, ih h]
  | case3 char content hescape ih =>
    simp only [Bool.and_eq_true, bne_iff_ne] at h
    obtain ⟨⟨⟨hquote, hbreak⟩, hbackslash⟩, hrest⟩ := h
    rw [List.cons_append, scan, if_neg hquote, if_neg hbackslash, if_neg hbreak, ih hrest]

theorem spell_append (left right : List Lexeme) : spell (left ++ right) = spell left ++ spell right :=
  List.flatMap_append

theorem spell_cons (lexeme : Lexeme) (text : List Lexeme) :
    spell (lexeme :: text) = lexeme.chars ++ ' ' :: spell text := by
  rw [spell, List.flatMap_cons, List.append_assoc]
  rfl

/-- A lexeme without brackets leaves the open brackets as they are. -/
theorem scan_neutral_lexeme {lexeme : Lexeme} (h : ∀ char ∈ lexeme.chars, isNeutral char = true)
    (pending rest : List Char) :
    scan pending .outside (spell [lexeme] ++ rest) = scan pending .outside rest := by
  refine scan_neutral ?_ pending rest
  intro char hchar
  rw [spell_cons, spell, List.flatMap_nil] at hchar
  obtain hchar | hchar := List.mem_append.mp hchar
  · exact h char hchar
  · rw [List.mem_singleton.mp hchar]
    decide

theorem scan_quoted {content : String} (h : isEscaped content.toList = true)
    (pending rest : List Char) :
    scan pending .outside (spell [.quoted content] ++ rest) = scan pending .outside rest := by
  have hspell : spell [.quoted content] ++ rest =
      '"' :: (content.toList ++ '"' :: (' ' :: rest)) := by
    simp [spell, Lexeme.chars]
  have hblank := scan_neutral (show ∀ char ∈ [' '], isNeutral char = true by simp [isNeutral])
    pending rest
  have hopen : scan pending .outside ('"' :: (content.toList ++ '"' :: (' ' :: rest))) =
      scan pending .inside (content.toList ++ '"' :: (' ' :: rest)) := by
    simp [scan]
  rw [hspell, hopen, scan_escaped h]
  exact hblank

/-- Lexemes after each other are read after each other. -/
theorem scan_spell_append {left right : List Lexeme} {pending middle final rest : List Char}
    (hleft : ∀ rest, scan pending .outside (spell left ++ rest) = scan middle .outside rest)
    (hright : ∀ rest, scan middle .outside (spell right ++ rest) = scan final .outside rest) :
    scan pending .outside (spell (left ++ right) ++ rest) = scan final .outside rest := by
  rw [spell_append, List.append_assoc, hleft, hright]

theorem scan_spell_cons {lexeme : Lexeme} {right : List Lexeme}
    {pending middle final rest : List Char}
    (hfirst : ∀ rest, scan pending .outside (spell [lexeme] ++ rest) = scan middle .outside rest)
    (hright : ∀ rest, scan middle .outside (spell right ++ rest) = scan final .outside rest) :
    scan pending .outside (spell (lexeme :: right) ++ rest) = scan final .outside rest :=
  scan_spell_append hfirst hright

/-- An opening bracket, with a name behind it, waits for its closing one. -/
theorem scan_opening {lexeme : Lexeme} {bracket closing : Char} {name : List Char}
    (hchars : lexeme.chars = bracket :: name)
    (hbracket : bracket = '(' ∧ closing = ')' ∨ bracket = '[' ∧ closing = ']')
    (hname : ∀ char ∈ name, isNeutral char = true) (pending rest : List Char) :
    scan pending .outside (spell [lexeme] ++ rest) = scan (closing :: pending) .outside rest := by
  have hblank : ∀ char ∈ name ++ [' '], isNeutral char = true := by
    intro char hchar
    obtain hchar | hchar := List.mem_append.mp hchar
    · exact hname char hchar
    · rw [List.mem_singleton.mp hchar]
      decide
  have hspell : spell [lexeme] ++ rest = bracket :: ((name ++ [' ']) ++ rest) := by
    simp [spell, hchars]
  have hrest := scan_neutral hblank (closing :: pending) rest
  rw [hspell, ← hrest]
  obtain ⟨rfl, rfl⟩ | ⟨rfl, rfl⟩ := hbracket
  · rw [scan, if_pos rfl]
  · rw [scan, if_neg (by decide), if_pos rfl]

theorem scan_closing {lexeme : Lexeme} {closing : Char} (hchars : lexeme.chars = [closing])
    (hclosing : closing = ')' ∨ closing = ']') (pending rest : List Char) :
    scan (closing :: pending) .outside (spell [lexeme] ++ rest) = scan pending .outside rest := by
  have hspell : spell [lexeme] ++ rest = closing :: ([' '] ++ rest) := by
    simp [spell, hchars]
  have hrest := scan_neutral (show ∀ char ∈ [' '], isNeutral char = true by simp [isNeutral])
    pending rest
  have hne : closing ≠ '(' ∧ closing ≠ '[' := by
    obtain rfl | rfl := hclosing <;> decide
  rw [hspell, ← hrest, scan, if_neg hne.1, if_neg hne.2, if_pos hclosing]
  simp

/-- A bracketed part is read as a whole. -/
theorem scan_bracketed {opening closing : Lexeme} {inner : List Lexeme} {bracket close : Char}
    {name : List Char} (hopening : opening.chars = bracket :: name)
    (hname : ∀ char ∈ name, isNeutral char = true)
    (hbracket : bracket = '(' ∧ close = ')' ∨ bracket = '[' ∧ close = ']')
    (hclosing : closing.chars = [close])
    (hinner : ∀ pending rest,
      scan pending .outside (spell inner ++ rest) = scan pending .outside rest)
    (pending rest : List Char) :
    scan pending .outside (spell (opening :: (inner ++ [closing])) ++ rest) =
      scan pending .outside rest := by
  have hclose : close = ')' ∨ close = ']' := by tauto
  have hbody : ∀ rest, scan (close :: pending) .outside (spell (inner ++ [closing]) ++ rest) =
      scan pending .outside rest := fun rest =>
    scan_spell_append (hinner _) (scan_closing hclosing hclose pending)
  exact scan_spell_cons (scan_opening hopening hbracket hname pending) hbody

theorem scan_tag {tag : Tag} (h : Tag.Fits tag) (pending rest : List Char) :
    scan pending .outside (spell (Tag.lexemes tag) ++ rest) = scan pending .outside rest := by
  have hmark : ∀ name : String, isWord name = true →
      ∀ char ∈ '@' :: name.toList, isNeutral char = true := fun name hname =>
    List.forall_mem_cons.mpr ⟨by decide, isNeutral_of_isWord hname⟩
  have hreference : ∀ name, isWord name = true → ∀ pending rest,
      scan pending .outside (spell [.reference name] ++ rest) = scan pending .outside rest :=
    fun name hname => scan_neutral_lexeme (hmark name hname)
  have hpredicate : ∀ char ∈ ['#', 'e', 'q', '?'], isNeutral char = true := by
    simp [isNeutral]
  cases tag with
  | capture name =>
    have hword : isWord name = true := h _ (List.mem_singleton_self _)
    have hcapture : ∀ char ∈ (Lexeme.capture name).chars, isNeutral char = true := hmark name hword
    exact scan_neutral_lexeme hcapture pending rest
  | eqString name text =>
    simp only [Tag.Fits, Tag.lexemes, List.forall_mem_cons, Lexeme.isSpelled] at h
    obtain ⟨-, hword, htext, -⟩ := h
    have hinner : ∀ pending rest,
        scan pending .outside (spell [.reference name, .quoted text] ++ rest) =
          scan pending .outside rest := fun pending rest =>
      scan_spell_cons (hreference name hword pending) (scan_quoted htext pending)
    exact scan_bracketed rfl hpredicate (.inl ⟨rfl, rfl⟩) rfl hinner pending rest
  | eqCapture first second =>
    simp only [Tag.Fits, Tag.lexemes, List.forall_mem_cons, Lexeme.isSpelled] at h
    obtain ⟨-, hfirst, hsecond, -⟩ := h
    have hinner : ∀ pending rest,
        scan pending .outside (spell [.reference first, .reference second] ++ rest) =
          scan pending .outside rest := fun pending rest =>
      scan_spell_cons (hreference first hfirst pending) (hreference second hsecond pending)
    exact scan_bracketed rfl hpredicate (.inl ⟨rfl, rfl⟩) rfl hinner pending rest

mutual

/-- An item with correct names and strings closes what it opens. -/
theorem scan_item (item : Item) (h : Item.Fits item) (pending rest : List Char) :
    scan pending .outside (spell (Item.lexemes item) ++ rest) = scan pending .outside rest := by
  cases item with
  | token kind => exact scan_quoted h pending rest
  | wildcard => exact scan_neutral_lexeme (by simp [Lexeme.chars, isNeutral]) pending rest
  | node kind items =>
    exact scan_bracketed rfl (isNeutral_of_isWord h.1) (.inl ⟨rfl, rfl⟩) rfl
      (scan_items items h.2) pending rest
  | group items =>
    exact scan_bracketed rfl (by simp) (.inl ⟨rfl, rfl⟩) rfl (scan_items items h) pending rest
  | alternation items =>
    exact scan_bracketed rfl (by simp) (.inr ⟨rfl, rfl⟩) rfl (scan_items items h) pending rest
  | fieldName name =>
    refine scan_neutral_lexeme ?_ pending rest
    intro char hchar
    obtain hchar | hchar := List.mem_append.mp hchar
    · exact isNeutral_of_isWord h char hchar
    · rw [List.mem_singleton.mp hchar]
      decide
  | anchor => exact scan_neutral_lexeme (by simp [Lexeme.chars, isNeutral]) pending rest
  | tag tag => exact scan_tag h pending rest

theorem scan_items (items : List Item) {first second : Lexeme} (h : FitsBetween first items second)
    (pending rest : List Char) :
    scan pending .outside (spell (lexemesOf items) ++ rest) = scan pending .outside rest := by
  cases items with
  | nil => rfl
  | cons item items =>
    obtain ⟨-, hitem, hitems⟩ := h
    rw [lexemesOf]
    exact scan_spell_append (scan_item item hitem pending) (scan_items items hitems pending)

end

end Scan

/-- The text of items is well-formed exactly when the items fit. -/
theorem wellFormedText_iff (items : List Item) :
    WellFormedText (lexemesOf items) ↔ FitsBetween .openBracket items .closeBracket := by
  have hsound := sound_items items .openBracket .closeBracket
  constructor
  · rintro ⟨-, hspelled, hadjacent⟩
    refine (hsound.mp ⟨hadjacent, ?_⟩).2.1
    intro lexeme hlexeme
    obtain rfl | hlexeme := List.mem_cons.mp hlexeme
    · rfl
    · obtain hlexeme | hlexeme := List.mem_append.mp hlexeme
      · exact hspelled lexeme hlexeme
      · rw [List.mem_singleton.mp hlexeme]
        rfl
  · intro hfits
    obtain ⟨hadjacent, hspelled⟩ := hsound.mpr ⟨rfl, hfits, rfl⟩
    refine ⟨?_, ?_, hadjacent⟩
    · have hscan := scan_items items hfits [] []
      rw [List.append_nil] at hscan
      rw [hscan]
      rfl
    · intro lexeme hlexeme
      exact hspelled lexeme (List.mem_cons_of_mem _ (List.mem_append_left _ hlexeme))

section Captures

/-- Behind a pattern or a capture every lexeme can follow. -/
theorem follows_of_isSettled {first : Lexeme} (h : first.isSettled = true) (second : Lexeme) :
    follows first second = true := by
  cases first <;> cases second <;> first | rfl | cases h

theorem isSettled_last {item : Item} (h : (Item.isPattern item || Item.isTag item) = true) :
    (Item.last item).isSettled = true := by
  cases item with
  | fieldName name => cases h
  | anchor => cases h
  | tag tag => cases tag <;> rfl
  | _ => rfl

/-- Two patterns or captures before a sequence make no difference. -/
theorem fitsBetween_of_isSettled {first other second : Lexeme} (hfirst : first.isSettled = true)
    (hother : other.isSettled = true) (items : List Item) :
    FitsBetween first items second ↔ FitsBetween other items second := by
  cases items with
  | nil =>
    rw [FitsBetween, FitsBetween, follows_of_isSettled hfirst, follows_of_isSettled hother]
  | cons item items =>
    rw [FitsBetween, FitsBetween, follows_of_isSettled hfirst, follows_of_isSettled hother]

/-- A group without a pattern cannot be read. -/
theorem not_fitsBetween_openGroup {items : List Item} (h : stripOf items = []) :
    ¬FitsBetween .openGroup items .close := by
  cases items with
  | nil => exact Bool.false_ne_true
  | cons item items =>
    have htag := (stripOf_eq_nil _).mp h item List.mem_cons_self
    rintro ⟨hfollows, -⟩
    cases item with
    | tag tag => cases tag <;> cases hfollows
    | _ => cases htag

mutual

/-- An item can be read when it can without its captures, and the captures can. -/
theorem fits_strip (item : Item) (h : Item.Tidy item) (htag : Item.isTag item = false) :
    ∃ plain, Item.strip item = [plain] ∧ Item.first plain = Item.first item ∧
      Item.last plain = Item.last item ∧
      (Item.Fits item ↔ Item.Fits plain ∧ ∀ tag ∈ item.tags, Tag.Fits tag) := by
  have hleaf : ∀ plain : Item, plain.tags = [] →
      (Item.Fits plain ↔ Item.Fits plain ∧ ∀ tag ∈ plain.tags, Tag.Fits tag) := by
    intro plain htags
    rw [htags]
    exact (and_iff_left (List.forall_mem_nil _)).symm
  cases item with
  | token kind => exact ⟨_, rfl, rfl, rfl, hleaf _ rfl⟩
  | wildcard => exact ⟨_, rfl, rfl, rfl, hleaf _ rfl⟩
  | node kind items =>
    have hitems := fitsBetween_strip items (.openNode kind) .close h (.inl rfl)
    refine ⟨.node kind (stripOf items), rfl, rfl, rfl, ?_⟩
    rw [Item.Fits, Item.Fits, Item.tags, hitems, and_assoc]
  | group items =>
    refine ⟨.group (stripOf items), rfl, rfl, rfl, ?_⟩
    rw [Item.Fits, Item.Fits, Item.tags]
    obtain h | h := h
    · exact fitsBetween_strip items .openGroup .close h (.inl rfl)
    · rw [h]
      exact iff_of_false (not_fitsBetween_openGroup h) fun hfits =>
        not_fitsBetween_openGroup rfl hfits.1
  | alternation items =>
    exact ⟨.alternation (stripOf items), rfl, rfl, rfl,
      fitsBetween_strip items .openBracket .closeBracket h (.inl rfl)⟩
  | fieldName name => exact ⟨_, rfl, rfl, rfl, hleaf _ rfl⟩
  | anchor => exact ⟨_, rfl, rfl, rfl, hleaf _ rfl⟩
  | tag tag => cases htag

/-- A sequence can be read when it can without its captures, and the captures can. -/
theorem fitsBetween_strip (items : List Item) (first second : Lexeme) {settled : Bool}
    (h : Tidy settled items) (hsettled : settled = false ∨ first.isSettled = true) :
    FitsBetween first items second ↔
      FitsBetween first (stripOf items) second ∧ ∀ tag ∈ tagsOf items, Tag.Fits tag := by
  cases items with
  | nil => exact (and_iff_left (List.forall_mem_nil _)).symm
  | cons item items =>
    obtain ⟨hplace, hitem, hitems⟩ := h
    have hrest : FitsBetween (Item.last item) items second ↔
        FitsBetween (Item.last item) (stripOf items) second ∧
          ∀ tag ∈ tagsOf items, Tag.Fits tag := by
      refine fitsBetween_strip items (Item.last item) second hitems ?_
      cases hpattern : (Item.isPattern item || Item.isTag item) with
      | false => exact .inl rfl
      | true => exact .inr (isSettled_last hpattern)
    rw [FitsBetween, hrest, tagsOf, List.forall_mem_append, stripOf]
    cases htag : Item.isTag item with
    | false =>
      obtain ⟨plain, hstrip, hfirst, hlast, hfits⟩ := fits_strip item hitem htag
      rw [hstrip, List.singleton_append, FitsBetween, hfirst, hlast, hfits]
      tauto
    | true =>
      have hfirst : first.isSettled = true := by
        rw [hplace htag] at hsettled
        exact hsettled.resolve_left (by decide)
      have hlast := isSettled_last (show (Item.isPattern item || Item.isTag item) = true by
        rw [htag, Bool.or_true])
      rw [fitsBetween_of_isSettled hlast hfirst, follows_of_isSettled hfirst]
      cases item with
      | tag tag =>
        rw [Item.Fits, Item.tags, Item.strip, List.nil_append, List.forall_mem_singleton]
        tauto
      | _ => cases htag

end

end Captures

/-- A name that is a number is a word. -/
theorem isWord_toString (n : ℕ) : isWord (toString n) = true := by
  have hdigits : (toString n).toList = Nat.toDigits 10 n := Nat.toList_repr
  rw [isWord, hdigits, Bool.and_eq_true, bne_iff_ne, List.all_eq_true]
  refine ⟨Nat.toDigits_ne_nil, ?_⟩
  intro char hchar
  have hdigit : char.isDigit = true :=
    Nat.isDigit_of_mem_toDigits (by decide : 0 < 10) (by decide) hchar
  rw [Char.isAlphanum, hdigit, Bool.or_true, Bool.true_or]

end WeggliEnhance.QueryGrammar
