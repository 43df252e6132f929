import WeggliEnhance.RuleFiles

/-!
# Walking directories

`iter_files` of `rules.rs`. The directory walker visits a tree in depth-first
order, prunes hidden entries, drops what it cannot read and does not follow
symbolic links, except at the root. What it lists is stated in terms of the
names that lead to a file. A path determines these names, so no file is listed
twice.
-/

namespace WeggliEnhance.DirectoryWalk

open SourceText RegexRules RuleFiles

mutual

/-- What the file system holds below a path. -/
inductive FileTree where
  /-- Anything but a directory, symbolic links among them. -/
  | file
  /-- A directory, with its entries in the order of the system. -/
  | dir (readable : Bool) (children : List Child)
  /-- An entry that cannot be examined. -/
  | error

/-- An entry of a directory. -/
inductive Child where
  /-- The name of the entry and what it is. -/
  | mk (name : String) (tree : FileTree)

end

/-- The name of an entry. -/
def Child.name : Child → String
  | .mk name _ => name

/-- What an entry is. -/
def Child.tree : Child → FileTree
  | .mk _ tree => tree

/-- What a walk starts from. -/
structure Root where
  /-- The path is a symbolic link. -/
  link : Bool
  /-- What the path or its target is. -/
  tree : FileTree

/-- Induction over directories. -/
theorem tree_rule {motive : FileTree → Prop} (hfile : motive .file) (herror : motive .error)
    (hdir : ∀ readable children, (∀ child ∈ children, motive child.tree) →
      motive (.dir readable children)) (tree : FileTree) : motive tree :=
  @FileTree.rec motive (fun child => motive child.tree)
    (fun children => ∀ child ∈ children, motive child.tree) hfile hdir herror (fun _ _ h => h)
    (List.forall_mem_nil _) (fun _ _ hfirst hrest => List.forall_mem_cons.mpr ⟨hfirst, hrest⟩) tree

section Paths

/-- The names of a path, as `Path::components` lists them. -/
def components (path : String) : List (List Char) :=
  (path.toList.splitOn '/').filter fun part => part ≠ [] ∧ part ≠ ['.']

/-- `Path::file_name`. -/
def fileName (path : String) : Option String :=
  match (components path).getLast? with
  | none => none
  | some part => if part = ['.', '.'] then none else some (String.ofList part)

/-- The part of a file name behind its last dot, if something stands before. -/
def extensionOf (name : String) : Option String :=
  let parts := name.toList.splitOn '.'
  if parts.length < 2 ∨ parts.dropLast = [[]] then none else parts.getLast?.map String.ofList

/-- `Path::extension`. -/
def extension (path : String) : Option String := (fileName path).bind extensionOf

/-- A name that an entry of a directory can have. -/
structure Proper (name : String) : Prop where
  /-- It is not empty. -/
  nonempty : name.toList ≠ []
  /-- It holds no separator. -/
  separator : '/' ∉ name.toList
  /-- It does not stand for the directory itself. -/
  current : name.toList ≠ ['.']
  /-- It does not stand for the directory above. -/
  parent : name.toList ≠ ['.', '.']

instance : DecidablePred Proper := fun name =>
  decidable_of_iff (name.toList ≠ [] ∧ '/' ∉ name.toList ∧ name.toList ≠ ['.'] ∧
      name.toList ≠ ['.', '.'])
    ⟨fun h => ⟨h.1, h.2.1, h.2.2.1, h.2.2.2⟩,
      fun h => ⟨h.nonempty, h.separator, h.current, h.parent⟩⟩

theorem splitOn_name {name : String} (h : Proper name) (base : List Char) :
    (base ++ '/' :: name.toList).splitOn '/' = base.splitOn '/' ++ [name.toList] := by
  rw [List.splitOn_append_cons_self, List.splitOn_eq_singleton h.separator]

/-- Joining a name adds one component. -/
theorem components_join {base name : String} (h : Proper name) :
    components (join base name) = components base ++ [name.toList] := by
  have hname : [name.toList].filter (fun part => part ≠ [] ∧ part ≠ ['.']) = [name.toList] := by
    rw [List.filter_singleton]
    simp [h.nonempty, h.current]
  unfold components join
  by_cases hbase : base = "" ∨ endsWith base '/' = true
  · rw [if_pos hbase, String.toList_append]
    rcases hbase with rfl | hends
    · rw [List.splitOn_eq_singleton (by simpa using h.separator)]
      simpa using hname
    · obtain ⟨before, hbefore⟩ : ∃ before, base.toList = before ++ ['/'] := by
        rw [endsWith, beq_iff_eq] at hends
        exact ⟨base.toList.dropLast, (List.dropLast_append_getLast? _ hends).symm⟩
      rw [hbefore, List.append_assoc, List.singleton_append, splitOn_name h,
        List.splitOn_append_cons_self, List.filter_append, List.filter_append, hname]
      simp
  · rw [if_neg hbase, String.toList_append, String.toList_append]
    rw [show "/".toList = ['/'] from rfl, List.append_assoc, List.singleton_append, splitOn_name h,
      List.filter_append, hname]

/-- The path that a list of names leads to. -/
def follow (path : String) (names : List String) : String := names.foldl join path

theorem components_follow {path : String} {names : List String} (h : ∀ name ∈ names, Proper name) :
    components (follow path names) = components path ++ names.map String.toList := by
  induction names generalizing path with
  | nil => rw [follow, List.foldl_nil, List.map_nil, List.append_nil]
  | cons name names ih =>
    obtain ⟨hname, hnames⟩ := List.forall_mem_cons.mp h
    have hstep : follow path (name :: names) = follow (join path name) names := rfl
    rw [hstep, ih hnames, components_join hname, List.map_cons, List.append_assoc,
      List.singleton_append]

/-- A path determines the names that lead to it. -/
theorem follow_injective (path : String) {names names' : List String}
    (h : ∀ name ∈ names, Proper name) (h' : ∀ name ∈ names', Proper name)
    (heq : follow path names = follow path names') : names = names' := by
  have hcomponents := congrArg components heq
  rw [components_follow h, components_follow h'] at hcomponents
  exact List.map_injective_iff.mpr (fun _ _ h => String.toList_injective h)
    (List.append_cancel_left hcomponents)

/-- The last name of a path is its file name. -/
theorem fileName_join {path name : String} (h : Proper name) :
    fileName (join path name) = some name := by
  rw [fileName, components_join h, List.getLast?_concat]
  dsimp only
  rw [if_neg h.parent, String.ofList_toList]

end Paths

section Walk

/-- An entry that the walker yields. -/
structure DirEntry where
  /-- Its path. -/
  path : String
  /-- It is a directory. -/
  isDir : Bool

/-- `DirEntry::file_name`. -/
def entryName (path : String) : String := (fileName path).getD path

/-- A name that does not start with a dot. -/
def isVisible (name : String) : Bool := !startsWith name '.'

/-- The closure `is_hidden`. -/
def isHidden (entry : DirEntry) : Bool := startsWith (entryName entry.path) '.'

variable (keeps : DirEntry → Bool)

mutual

/-- `WalkDir` with `filter_entry`, below a path. An error is yielded where an
entry cannot be examined and where a directory cannot be opened. -/
def walk : String → FileTree → List (Option DirEntry)
  | _, .error => [none]
  | path, .file => if keeps ⟨path, false⟩ then [some ⟨path, false⟩] else []
  | path, .dir readable children =>
    if keeps ⟨path, true⟩ then
      some ⟨path, true⟩ :: (if readable then walkChildren path children else [none])
    else []

/-- The entries of a directory one after the other. -/
def walkChildren : String → List Child → List (Option DirEntry)
  | _, [] => []
  | path, .mk name tree :: children => walk (join path name) tree ++ walkChildren path children

end

/-- The walk from its root. A link to a directory is opened, but it is no
directory itself and is not skipped when it is filtered out. -/
def walkRoot (path : String) (root : Root) : List (Option DirEntry) :=
  match root.link, root.tree with
  | true, .dir readable children =>
    (if keeps ⟨path, false⟩ then [some ⟨path, false⟩] else []) ++
      (if readable then walkChildren keeps path children else [none])
  | _, tree => walk keeps path tree

theorem walkChildren_eq (path : String) (children : List Child) :
    walkChildren keeps path children =
      children.flatMap fun child => walk keeps (join path child.name) child.tree := by
  induction children with
  | nil => rw [walkChildren, List.flatMap_nil]
  | cons child children ih =>
    cases child
    rw [walkChildren, List.flatMap_cons, ih]
    rfl

end Walk

/-- `iter_files`: the paths of all files with one of the extensions. -/
def iterFiles (path : String) (root : Root) (extensions : List String) : List String :=
  (((walkRoot (fun entry => !isHidden entry) path root).filterMap id).filter fun entry =>
    !entry.isDir && (extension entry.path).any fun ext => extensions.contains ext).map DirEntry.path

section Names

/-- The names lead from an entry to a file through directories that can be
read. -/
inductive Leads : FileTree → List String → Prop
  /-- The entry is a file. -/
  | file : Leads .file []
  /-- The first name is that of an entry of the directory. -/
  | dir {children : List Child} {child : Child} {names : List String} : child ∈ children →
    Leads child.tree names → Leads (.dir true children) (child.name :: names)

/-- All directories hold entries with proper and different names. -/
inductive WellNamed : FileTree → Prop
  /-- A file. -/
  | file : WellNamed .file
  /-- An entry that cannot be examined. -/
  | error : WellNamed .error
  /-- A directory. -/
  | dir {readable : Bool} {children : List Child} : (children.map Child.name).Nodup →
    (∀ child ∈ children, Proper child.name) → (∀ child ∈ children, WellNamed child.tree) →
    WellNamed (.dir readable children)

/-- The names lead from the root to a file; the root itself counts as one if
it is a link to a directory. -/
def Root.Leads (root : Root) (names : List String) : Prop :=
  DirectoryWalk.Leads root.tree names ∨
    root.link = true ∧ names = [] ∧ ∃ readable children, root.tree = .dir readable children

theorem proper_of_leads {tree : FileTree} (hnamed : WellNamed tree) {names : List String}
    (h : Leads tree names) : ∀ name ∈ names, Proper name := by
  induction h with
  | file => exact List.forall_mem_nil _
  | @dir children child names hchild _ ih =>
    cases hnamed with
    | dir _ hproper hbelow =>
      exact List.forall_mem_cons.mpr ⟨hproper child hchild, ih (hbelow child hchild)⟩

end Names

section Listed

variable {path : String} {tree : FileTree}

/-- The visible files of a walk. -/
def listed (entries : List (Option DirEntry)) : List String :=
  ((entries.filterMap id).filter fun entry => !entry.isDir).map DirEntry.path

theorem listed_append (first second : List (Option DirEntry)) :
    listed (first ++ second) = listed first ++ listed second := by
  simp only [listed, List.filterMap_append, List.filter_append, List.map_append]

theorem listed_flatMap {α : Type*} (list : List α) (f : α → List (Option DirEntry)) :
    listed (list.flatMap f) = list.flatMap fun a => listed (f a) := by
  induction list with
  | nil => rfl
  | cons a list ih => rw [List.flatMap_cons, List.flatMap_cons, listed_append, ih]

/-- The walk of `iter_files` below a path. -/
abbrev visit (path : String) (tree : FileTree) : List (Option DirEntry) :=
  walk (fun entry => !isHidden entry) path tree

theorem shown_eq (path : String) (isDir : Bool) :
    (!isHidden ⟨path, isDir⟩) = isVisible (entryName path) := rfl

/-- Nothing is listed below a hidden path. -/
theorem listed_visit_hidden (hhidden : isVisible (entryName path) ≠ true) :
    listed (visit path tree) = [] := by
  cases tree with
  | file =>
    rw [visit, walk, shown_eq, if_neg hhidden]
    rfl
  | error =>
    rw [visit, walk]
    rfl
  | dir readable children =>
    rw [visit, walk, shown_eq, if_neg hhidden]
    rfl

theorem listed_visit_dir (hvisible : isVisible (entryName path) = true) (readable : Bool)
    (children : List Child) :
    listed (visit path (.dir readable children)) =
      if readable then children.flatMap fun child => listed (visit (join path child.name) child.tree)
      else [] := by
  rw [visit, walk, shown_eq, if_pos hvisible]
  cases readable with
  | false => rfl
  | true =>
    rw [if_pos rfl, if_pos rfl, walkChildren_eq]
    exact listed_flatMap children _

/-- The entries of a directory list what visible names lead to, if this holds
of each of them. -/
theorem mem_listed_children {children : List Child}
    (hproper : ∀ child ∈ children, Proper child.name)
    (hchildren : ∀ child ∈ children, ∀ path found, isVisible (entryName path) = true →
      (found ∈ listed (visit path child.tree) ↔ ∃ names, Leads child.tree names ∧
        (∀ name ∈ names, isVisible name = true) ∧ found = follow path names)) {found : String} :
    (found ∈ children.flatMap fun child => listed (visit (join path child.name) child.tree)) ↔
      ∃ names, Leads (.dir true children) names ∧ (∀ name ∈ names, isVisible name = true) ∧
        found = follow path names := by
  have hentry : ∀ child ∈ children, entryName (join path child.name) = child.name := by
    intro child hchild
    rw [entryName, fileName_join (hproper child hchild), Option.getD_some]
  rw [List.mem_flatMap]
  constructor
  · rintro ⟨child, hchild, hfound⟩
    by_cases hshown : isVisible child.name = true
    · have hpath : isVisible (entryName (join path child.name)) = true := by
        rw [hentry child hchild, hshown]
      obtain ⟨names, hleads, hall, rfl⟩ := (hchildren child hchild _ _ hpath).mp hfound
      exact ⟨child.name :: names, .dir hchild hleads, List.forall_mem_cons.mpr ⟨hshown, hall⟩, rfl⟩
    · rw [← hentry child hchild] at hshown
      rw [listed_visit_hidden hshown] at hfound
      cases hfound
  · rintro ⟨names, hleads, hall, rfl⟩
    cases hleads with
    | @dir _ child names hchild hleads =>
      obtain ⟨hshown, hrest⟩ := List.forall_mem_cons.mp hall
      rw [← hentry child hchild] at hshown
      exact ⟨child, hchild, (hchildren child hchild _ _ hshown).mpr ⟨names, hleads, hrest, rfl⟩⟩

/-- Below a visible path the walk lists what visible names lead to. -/
theorem mem_listed_visit (hnamed : WellNamed tree)
    (hvisible : isVisible (entryName path) = true) {found : String} :
    found ∈ listed (visit path tree) ↔
      ∃ names, Leads tree names ∧ (∀ name ∈ names, isVisible name = true) ∧
        found = follow path names := by
  induction tree using tree_rule generalizing path found with
  | hfile =>
    rw [visit, walk, shown_eq, if_pos hvisible]
    change found ∈ [path] ↔ _
    rw [List.mem_singleton]
    constructor
    · rintro rfl
      exact ⟨[], .file, List.forall_mem_nil _, rfl⟩
    · rintro ⟨names, hleads, -, rfl⟩
      cases hleads
      rfl
  | herror =>
    rw [visit, walk]
    refine iff_of_false List.not_mem_nil ?_
    rintro ⟨names, hleads, -⟩
    cases hleads
  | hdir readable children ih =>
    rw [listed_visit_dir hvisible]
    cases hnamed with
    | dir hnodup hproper hbelow =>
      cases readable with
      | false =>
        refine iff_of_false List.not_mem_nil ?_
        rintro ⟨names, hleads, -⟩
        cases hleads
      | true =>
        exact mem_listed_children hproper fun child hchild path found hpath =>
          ih child hchild (hbelow child hchild) hpath

/-- Whatever is listed below a path is led to by names. -/
theorem exists_names_of_listed (hnamed : WellNamed tree) {found : String}
    (h : found ∈ listed (visit path tree)) :
    ∃ names, Leads tree names ∧ found = follow path names := by
  by_cases hvisible : isVisible (entryName path) = true
  · obtain ⟨names, hleads, -, heq⟩ := (mem_listed_visit hnamed hvisible).mp h
    exact ⟨names, hleads, heq⟩
  · rw [listed_visit_hidden hvisible] at h
    cases h

/-- Entries of one directory list different files. -/
theorem nodup_listed_children {children : List Child} (hnodup : (children.map Child.name).Nodup)
    (hproper : ∀ child ∈ children, Proper child.name)
    (hbelow : ∀ child ∈ children, WellNamed child.tree)
    (hown : ∀ child ∈ children, (listed (visit (join path child.name) child.tree)).Nodup) :
    (children.flatMap fun child => listed (visit (join path child.name) child.tree)).Nodup := by
  rw [List.nodup_flatMap]
  refine ⟨hown, ?_⟩
  refine (List.pairwise_map.mp hnodup).imp_of_mem ?_
  intro child other hchild hother hne found hfound hfound'
  obtain ⟨names, hleads, heq⟩ := exists_names_of_listed (hbelow child hchild) hfound
  obtain ⟨names', hleads', heq'⟩ := exists_names_of_listed (hbelow other hother) hfound'
  have hnames : child.name :: names = other.name :: names' := by
    refine follow_injective path ?_ ?_ (heq.symm.trans heq')
    · exact List.forall_mem_cons.mpr
        ⟨hproper child hchild, proper_of_leads (hbelow child hchild) hleads⟩
    · exact List.forall_mem_cons.mpr
        ⟨hproper other hother, proper_of_leads (hbelow other hother) hleads'⟩
  exact hne (List.cons.inj hnames).1

theorem nodup_listed_visit (hnamed : WellNamed tree) : (listed (visit path tree)).Nodup := by
  induction tree using tree_rule generalizing path with
  | hfile =>
    by_cases hvisible : isVisible (entryName path) = true
    · rw [visit, walk, shown_eq, if_pos hvisible]
      exact List.nodup_singleton path
    · rw [listed_visit_hidden hvisible]
      exact List.nodup_nil
  | herror =>
    rw [visit, walk]
    exact List.nodup_nil
  | hdir readable children ih =>
    by_cases hvisible : isVisible (entryName path) = true
    · rw [listed_visit_dir hvisible]
      cases hnamed with
      | dir hnodup hproper hbelow =>
        cases readable with
        | false => exact List.nodup_nil
        | true =>
          exact nodup_listed_children hnodup hproper hbelow
            fun child hchild => ih child hchild (hbelow child hchild)
    · rw [listed_visit_hidden hvisible]
      exact List.nodup_nil

end Listed

section Roots

variable {path : String} {root : Root}

/-- All names are visible. The name of the root counts as well, unless the
root is a link and the file is not the link itself. -/
def Visible (path : String) (root : Root) (names : List String) : Prop :=
  (∀ name ∈ names, isVisible name = true) ∧
    (isVisible (entryName path) = true ∨ root.link = true ∧ names ≠ [])

theorem listed_linked (path : String) (readable : Bool) (children : List Child) :
    listed (walkRoot (fun entry => !isHidden entry) path ⟨true, .dir readable children⟩) =
      (if isVisible (entryName path) then [path] else []) ++
        (if readable then
          children.flatMap fun child => listed (visit (join path child.name) child.tree)
        else []) := by
  rw [walkRoot, listed_append, shown_eq]
  refine congrArg₂ _ ?_ ?_
  · split_ifs <;> rfl
  · cases readable with
    | false => rfl
    | true =>
      rw [if_pos rfl, if_pos rfl, walkChildren_eq]
      exact listed_flatMap children _

/-- The walk from any other root is the walk below it. -/
theorem walkRoot_eq_visit
    (hroot : root.link = false ∨ ∀ readable children, root.tree ≠ .dir readable children) :
    walkRoot (fun entry => !isHidden entry) path root = visit path root.tree := by
  obtain ⟨link, tree⟩ := root
  cases link with
  | false => rfl
  | true =>
    cases tree with
    | file => rfl
    | error => rfl
    | dir readable children =>
      rcases hroot with hlink | hdir
      · cases hlink
      · exact absurd rfl (hdir readable children)

/-- Every root is a link to a directory or not. -/
theorem unlinked_of_not
    (h : ¬(root.link = true ∧ ∃ readable children, root.tree = .dir readable children)) :
    root.link = false ∨ ∀ readable children, root.tree ≠ .dir readable children := by
  by_cases hlink : root.link = true
  · exact .inr fun readable children hdir => h ⟨hlink, readable, children, hdir⟩
  · exact .inl (Bool.eq_false_iff.mpr hlink)

/-- Names lead further down from a directory. -/
theorem ne_nil_of_leads_dir {readable : Bool} {children : List Child} {names : List String}
    (h : Leads (.dir readable children) names) : names ≠ [] ∧ readable = true := by
  cases h with
  | dir => exact ⟨List.cons_ne_nil _ _, rfl⟩

theorem mem_listed_below {children : List Child} {readable : Bool}
    (hnamed : WellNamed (.dir readable children)) {found : String} :
    (found ∈ if readable then
        children.flatMap fun child => listed (visit (join path child.name) child.tree) else []) ↔
      ∃ names, Leads (.dir readable children) names ∧ (∀ name ∈ names, isVisible name = true) ∧
        found = follow path names := by
  cases hnamed with
  | dir _ hproper hbelow =>
    cases readable with
    | false =>
      refine iff_of_false List.not_mem_nil ?_
      rintro ⟨names, hleads, -⟩
      exact absurd (ne_nil_of_leads_dir hleads).2 Bool.false_ne_true
    | true =>
      exact mem_listed_children hproper fun child hchild path found hpath =>
        mem_listed_visit (hbelow child hchild) hpath

/-- The files listed from a link to a directory. -/
theorem mem_listed_linked {readable : Bool} {children : List Child}
    (hnamed : WellNamed (.dir readable children)) {found : String} :
    found ∈ listed (walkRoot (fun entry => !isHidden entry) path ⟨true, .dir readable children⟩) ↔
      ∃ names, Root.Leads ⟨true, .dir readable children⟩ names ∧
        Visible path ⟨true, .dir readable children⟩ names ∧ found = follow path names := by
  rw [listed_linked, List.mem_append, mem_listed_below hnamed]
  constructor
  · rintro (hself | ⟨names, hleads, hall, rfl⟩)
    · split_ifs at hself with hvisible
      · rw [List.mem_singleton.mp hself]
        exact ⟨[], .inr ⟨rfl, rfl, readable, children, rfl⟩, ⟨List.forall_mem_nil _, .inl hvisible⟩,
          rfl⟩
      · cases hself
    · exact ⟨names, .inl hleads, ⟨hall, .inr ⟨rfl, (ne_nil_of_leads_dir hleads).1⟩⟩, rfl⟩
  · rintro ⟨names, hleads | ⟨-, rfl, -⟩, ⟨hall, hself⟩, rfl⟩
    · exact .inr ⟨names, hleads, hall, rfl⟩
    · rw [if_pos (hself.resolve_right fun h => h.2 rfl)]
      exact .inl List.mem_cons_self

/-- The files listed from a root. -/
theorem mem_listed_walkRoot (hnamed : WellNamed root.tree) {found : String} :
    found ∈ listed (walkRoot (fun entry => !isHidden entry) path root) ↔
      ∃ names, root.Leads names ∧ Visible path root names ∧ found = follow path names := by
  by_cases hlinked : root.link = true ∧ ∃ readable children, root.tree = .dir readable children
  · obtain ⟨link, tree⟩ := root
    obtain ⟨rfl, readable, children, rfl⟩ := hlinked
    exact mem_listed_linked hnamed
  · have hleads : ∀ names, root.Leads names ↔ Leads root.tree names :=
      fun names => or_iff_left fun h => hlinked ⟨h.1, h.2.2⟩
    rw [walkRoot_eq_visit (unlinked_of_not hlinked)]
    simp only [hleads]
    by_cases hvisible : isVisible (entryName path) = true
    · rw [mem_listed_visit hnamed hvisible]
      simp only [Visible, hvisible, true_or, and_true]
    · rw [listed_visit_hidden hvisible]
      refine iff_of_false List.not_mem_nil ?_
      rintro ⟨names, hnames, ⟨-, hself⟩, -⟩
      obtain ⟨hlink, hne⟩ := hself.resolve_left hvisible
      cases htree : root.tree with
      | file =>
        rw [htree] at hnames
        cases hnames
        exact hne rfl
      | error =>
        rw [htree] at hnames
        cases hnames
      | dir readable children => exact hlinked ⟨hlink, readable, children, htree⟩

/-- No file is listed twice. -/
theorem nodup_listed_walkRoot (hnamed : WellNamed root.tree) :
    (listed (walkRoot (fun entry => !isHidden entry) path root)).Nodup := by
  by_cases hlinked : root.link = true ∧ ∃ readable children, root.tree = .dir readable children
  · obtain ⟨link, tree⟩ := root
    obtain ⟨rfl, readable, children, rfl⟩ := hlinked
    rw [listed_linked, List.nodup_append']
    refine ⟨?_, ?_, ?_⟩
    · split_ifs
      · exact List.nodup_singleton path
      · exact List.nodup_nil
    · cases hnamed with
      | dir hnodup hproper hbelow =>
        split_ifs
        · exact nodup_listed_children hnodup hproper hbelow
            fun child hchild => nodup_listed_visit (hbelow child hchild)
        · exact List.nodup_nil
    · intro found hself hbelow
      obtain rfl : found = path := by
        split_ifs at hself
        · exact List.mem_singleton.mp hself
        · cases hself
      obtain ⟨names, hleads, -, heq⟩ := (mem_listed_below hnamed).mp hbelow
      have hnames : [] = names := follow_injective found (List.forall_mem_nil _)
        (proper_of_leads hnamed hleads) heq
      exact (ne_nil_of_leads_dir hleads).1 hnames.symm
  · rw [walkRoot_eq_visit (unlinked_of_not hlinked)]
    exact nodup_listed_visit hnamed

end Roots

/-- The extension test comes after the directories are left out. -/
theorem iterFiles_eq (path : String) (root : Root) (extensions : List String) :
    iterFiles path root extensions =
      (listed (walkRoot (fun entry => !isHidden entry) path root)).filter fun found =>
        (extension found).any fun ext => extensions.contains ext := by
  rw [iterFiles, listed, List.filter_map, List.filter_filter]
  refine congrArg _ (List.filter_congr ?_)
  intro entry _
  rw [Bool.and_comm]
  rfl

theorem mem_iterFiles {path : String} {root : Root} (hnamed : WellNamed root.tree)
    {extensions : List String} {found : String} :
    found ∈ iterFiles path root extensions ↔
      (∃ names, root.Leads names ∧ Visible path root names ∧ found = follow path names) ∧
        ∃ ext ∈ extensions, extension found = some ext := by
  rw [iterFiles_eq, List.mem_filter, mem_listed_walkRoot hnamed, Option.any_eq_true]
  refine and_congr_right fun _ => exists_congr fun ext => ?_
  rw [List.contains_iff_mem, and_comm]

theorem nodup_iterFiles {root : Root} (hnamed : WellNamed root.tree) (path : String)
    (extensions : List String) : (iterFiles path root extensions).Nodup := by
  rw [iterFiles_eq]
  exact (nodup_listed_walkRoot hnamed).filter _

end WeggliEnhance.DirectoryWalk
