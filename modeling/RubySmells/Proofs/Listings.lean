import Mathlib.Data.List.Nodup
import Mathlib.Data.List.Sort
import RubySmells.NameSet
import RubySmells.Proofs.Expansion

/-!
# What directories list, in order

Which paths a directory stands for, and in which order.

* **entries below** — what is listed is every entry at the end of names none of which is
  hidden, the last one that of a source file, provided that the path to the directory it
  is in is short enough (`Entry.lists_iff`);
* **order** — no two entries are listed under one path (`Entry.nodup_sourcesAll`), so
  sorting makes the list strictly increasing (`FileTree.pairwise_sourcesIn`), and which
  list it is depends on its members alone (`FileTree.Expands.unique`);
* **spelling** — a directory is written as it was given, but for slashes at its end, and
  from the first name with a wildcard on, for slashes in a row (`Path.fronts_iff`).
-/

namespace RubySmells

/-! ## Entries below -/

namespace Entry

/-- An entry is at the end of names, each that of an entry of the directory before. -/
inductive Below : List Entry → List String → Entry → Prop
  | here {entries : List Entry} {e : Entry} (he : e ∈ entries) : Below entries [e.name] e
  | inside {entries inner : List Entry} {name : String} {names : List String} {e : Entry}
      (hname : .directory name inner ∈ entries) (h : Below inner names e) :
      Below entries (name :: names) e

variable {above : String} {entries : List Entry} {names : List String} {e : Entry}

theorem Below.names_ne_nil (h : Below entries names e) : names ≠ [] := by
  cases h with
  | here => exact List.cons_ne_nil _ _
  | inside => exact List.cons_ne_nil _ _

/-- The path of every directory on the way is short enough. -/
def Short (above : String) (names : List String) : Prop :=
  names = [] ∨ (above ++ "/".intercalate names).utf8ByteSize < FileTree.maxPathBytes

/-- Names lead through directories with short paths if the last of these paths is short. -/
theorem short_cons {name : String} :
    Short above (name :: names) ↔
      (above ++ name).utf8ByteSize < FileTree.maxPathBytes ∧
        Short (above ++ name ++ "/") names := by
  cases names with
  | nil => simp [Short, String.intercalate_singleton]
  | cons n ns =>
      have hjoin : above ++ name ++ "/" ++ "/".intercalate (n :: ns) =
          above ++ "/".intercalate (name :: n :: ns) :=
        intercalate_cons name (List.cons_ne_nil n ns)
      simp only [Short, hjoin, List.cons_ne_nil, false_or]
      refine ⟨fun h => ⟨?_, h⟩, fun h => h.2⟩
      rw [← hjoin, String.utf8ByteSize_append, String.utf8ByteSize_append] at h
      omega

theorem isHidden_eq_false_iff : e.isHidden = false ↔ e.name.toList.head? ≠ some '.' := by
  simp [isHidden]

/-- What is listed is below, with no hidden name on the way, the name of a source file, and
short paths of the directories passed. -/
theorem lists_iff :
    Lists above entries names e ↔
      Below entries names e ∧ (∀ n ∈ names, n.toList.head? ≠ some '.') ∧
        ".rb".toList <:+ e.name.toList ∧ Short above names.dropLast := by
  constructor
  · intro h
    induction h with
    | here he hhidden hsource =>
        exact ⟨.here he, List.forall_mem_singleton.2 (isHidden_eq_false_iff.1 hhidden),
          List.isSuffixOf_iff_suffix.1 hsource, .inl rfl⟩
    | inside hname hhidden hshort h ih =>
        obtain ⟨hbelow, hnames, hsource, hall⟩ := ih
        have hname' := isHidden_eq_false_iff.1 hhidden
        refine ⟨.inside hname hbelow, List.forall_mem_cons.2 ⟨hname', hnames⟩, hsource, ?_⟩
        rw [List.dropLast_cons_of_ne_nil h.names_ne_nil]
        exact short_cons.2 ⟨hshort, hall⟩
  · rintro ⟨hbelow, hnames, hsource, hshort⟩
    induction hbelow generalizing above with
    | here he =>
        have hhidden := isHidden_eq_false_iff.2 (hnames _ List.mem_cons_self)
        exact .here he hhidden (List.isSuffixOf_iff_suffix.2 hsource)
    | inside hname hbelow ih =>
        obtain ⟨hhidden, hnames⟩ := List.forall_mem_cons.1 hnames
        rw [List.dropLast_cons_of_ne_nil hbelow.names_ne_nil] at hshort
        obtain ⟨hfirst, hrest⟩ := short_cons.1 hshort
        exact .inside hname (isHidden_eq_false_iff.2 hhidden) hfirst (ih hnames hsource hrest)

/-! ## Order -/

theorem proper_singleton (hproper : Directory.Proper entries) (he : e ∈ entries) :
    Directory.Proper [e] := by
  intro listing hlisting
  rcases List.mem_cons.1 hlisting with rfl | hlisting
  · exact ⟨List.nodup_singleton _, List.forall_mem_singleton.2 (hproper.isName he)⟩
  · rw [listingsAll_eq, List.flatMap_singleton] at hlisting
    refine hproper listing (List.mem_cons_of_mem _ ?_)
    rw [listingsAll_eq]
    exact List.mem_flatMap.2 ⟨e, he, hlisting⟩

/-- What is found at an entry is written with its name first. -/
theorem exists_names_of_mem_sources {p : String} (hproper : Directory.Proper entries)
    (he : e ∈ entries) (hp : p ∈ e.sources above) :
    ∃ names, p = above ++ "/".intercalate (e.name :: names) ∧
      Path.names ("/".intercalate (e.name :: names)) = e.name :: names := by
  obtain ⟨names, d, hlists, rfl⟩ := exists_lists_of_mem_sources List.mem_cons_self hp
  obtain ⟨-, hnames⟩ := hlists.follow (proper_singleton hproper he) []
  have hread := Path.names_intercalate hlists.names_ne_nil fun n hn => (hnames n hn).slash_not_mem
  cases hlists with
  | here hd =>
      obtain rfl := List.mem_singleton.1 hd
      exact ⟨[], rfl, hread⟩
  | inside hname =>
      obtain rfl := List.mem_singleton.1 hname
      exact ⟨_, rfl, hread⟩

/-- Entries of different names do not have a path in common. -/
theorem disjoint_sources {d : Entry} (hproper : Directory.Proper entries) (hd : d ∈ entries)
    (he : e ∈ entries) (hne : d.name ≠ e.name) :
    List.Disjoint (d.sources above) (e.sources above) := by
  intro p hpd hpe
  obtain ⟨ns, rfl, hns⟩ := exists_names_of_mem_sources hproper hd hpd
  obtain ⟨ms, heq, hms⟩ := exists_names_of_mem_sources hproper he hpe
  rw [(String.append_right_inj above).1 heq, hms] at hns
  exact hne (List.cons.inj hns).1.symm

theorem nodup_sourcesAll_of_sources (hproper : Directory.Proper entries)
    (h : ∀ e ∈ entries, (e.sources above).Nodup) : (sourcesAll above entries).Nodup := by
  rw [sourcesAll_eq, List.nodup_flatMap]
  refine ⟨h, ?_⟩
  have hnames := (hproper entries List.mem_cons_self).1
  rw [List.nodup_iff_pairwise_ne, List.pairwise_map] at hnames
  exact hnames.imp_of_mem fun hd he hne => disjoint_sources hproper hd he hne

/-- No path is found twice at an entry and below it. -/
theorem nodup_sources (hproper : Directory.Proper entries) (he : e ∈ entries) (above : String) :
    (e.sources above).Nodup := by
  induction e using Entry.induction generalizing above entries with
  | file name content =>
      rw [sources]
      split
      · exact List.nodup_nil
      split
      · exact List.nodup_singleton _
      · exact List.nodup_nil
  | directory name inner ih =>
      have hinner := hproper.directory he
      have hbelow : (sourcesAll (above ++ name ++ "/") inner).Nodup :=
        nodup_sourcesAll_of_sources hinner fun d hd => ih d hd hinner hd _
      -- What is found inside is longer than the path of the directory.
      have hself : above ++ name ∉ sourcesAll (above ++ name ++ "/") inner := by
        intro hmem
        obtain ⟨names, d, -, heq⟩ := mem_sourcesAll.1 hmem
        have hsize := congrArg String.utf8ByteSize heq
        simp only [String.utf8ByteSize_append] at hsize
        have hslash : "/".utf8ByteSize = 1 := rfl
        omega
      have hlooked : List.Sublist
          (if FileTree.maxPathBytes ≤ (above ++ name).utf8ByteSize then []
            else sourcesAll (above ++ name ++ "/") inner)
          (sourcesAll (above ++ name ++ "/") inner) := by
        split
        · exact List.nil_sublist _
        · exact List.Sublist.refl _
      rw [sources]
      dsimp only
      split
      · exact List.nodup_nil
      split
      · exact List.nodup_cons.2 ⟨fun hmem => hself (hlooked.subset hmem), hbelow.sublist hlooked⟩
      · exact hbelow.sublist hlooked

/-- No path is found twice in a directory. -/
theorem nodup_sourcesAll (hproper : Directory.Proper entries) (above : String) :
    (sourcesAll above entries).Nodup :=
  nodup_sourcesAll_of_sources hproper fun _ he => nodup_sources hproper he above

end Entry

namespace FileTree

variable {tree : FileTree} {entries : Directory} {d : String}

theorem proper_of_directory? (htree : tree.Proper) (hd : tree.directory? d = some entries) :
    entries.Proper := by
  obtain ⟨-, hfollow⟩ := follow_of_directory? hd
  have hroot : ∀ here ∈ [tree.root], Directory.Proper here := List.forall_mem_singleton.2 htree
  exact (follow_proper hroot hfollow).1

/-- Sorting a list without duplicates makes it strictly increasing. -/
theorem pairwise_mergeSort {ps : List String} (h : ps.Nodup) :
    (ps.mergeSort fun a b => decide (a ≤ b)).Pairwise (· < ·) := by
  have hle : (ps.mergeSort fun a b => decide (a ≤ b)).Pairwise
      fun a b => decide (a ≤ b) = true := by
    refine List.pairwise_mergeSort (fun a b c hab hbc => ?_) (fun a b => ?_) ps
    · exact decide_eq_true (String.le_trans (of_decide_eq_true hab) (of_decide_eq_true hbc))
    · simpa using String.le_total a b
  have hne : (ps.mergeSort fun a b => decide (a ≤ b)).Nodup :=
    (List.mergeSort_perm ps _).nodup_iff.2 h
  refine hle.imp₂ (fun a b hab hne => ?_) (List.nodup_iff_pairwise_ne.1 hne)
  have hab := of_decide_eq_true hab
  exact String.not_le.1 fun hba => hne (String.le_antisymm hab hba)

/-- What is found in a directory is strictly increasing. -/
theorem pairwise_sourcesIn (hproper : entries.Proper) (front : String) :
    (sourcesIn front entries).Pairwise (· < ·) := by
  rw [sourcesIn]
  split
  · exact .nil
  · exact pairwise_mergeSort (Entry.nodup_sourcesAll hproper front)

end FileTree

/-! ## Spelling -/

namespace Path

/-- A path with one slash at its end; it stays as it is if it is nothing but slashes. -/
def asDirectory (path : List Char) : List Char :=
  if stripSlashes path = [] then path else stripSlashes path ++ ['/']

/-- How a directory is written in front of what is found below it: with one slash at its
end, and if there is a name with a wildcard in it, with slashes in a row made one in front of
the first such name and from there on. -/
inductive Fronts : List Char → List Char → Prop
  | plain {path : List Char} (h : ∀ c ∈ path, isWildcard c = false) :
      Fronts path (asDirectory path)
  | wild {before name after : List Char} (hopen : Open before)
      (hbefore : ∀ c ∈ before, isWildcard c = false) (hname : '/' ∉ name)
      (hwild : ∃ c ∈ name, isWildcard c = true) (hafter : after = [] ∨ after.head? = some '/') :
      Fronts (before ++ name ++ after)
        (asDirectory before ++ name ++ mergeSlashes (after ++ ['/']))

theorem mergeSlashes_cons {c : Char} {p : List Char} (h : c ≠ '/' ∨ p.head? ≠ some '/') :
    mergeSlashes (c :: p) = c :: mergeSlashes p := by
  rw [mergeSlashes]
  rintro cs rfl rfl
  exact h.elim (fun h => h rfl) fun h => h rfl

theorem mergeSlashes_of_not_mem {p : List Char} (hp : '/' ∉ p) : mergeSlashes p = p := by
  induction p with
  | nil => rfl
  | cons c p ih =>
      have hc : c ≠ '/' := fun h => hp (h ▸ List.mem_cons_self)
      rw [mergeSlashes_cons (.inl hc), ih fun h => hp (List.mem_cons_of_mem _ h)]

/-- Slashes in a row are on one side of where a path without a slash at its end stops. -/
theorem mergeSlashes_append {p : List Char} (hp : p.getLast? ≠ some '/') (q : List Char) :
    mergeSlashes (p ++ q) = mergeSlashes p ++ mergeSlashes q := by
  fun_induction mergeSlashes p with
  | case1 cs ih => exact ih hp
  | case2 c cs hcs ih =>
      cases cs with
      | nil =>
          have hc : c ≠ '/' := fun h => hp (by rw [h]; rfl)
          exact mergeSlashes_cons (.inl hc)
      | cons d cs =>
          have hnext : c ≠ '/' ∨ (d :: cs ++ q).head? ≠ some '/' := by
            by_contra! h
            exact hcs cs h.1 (by rw [Option.some.inj h.2])
          rw [List.cons_append, mergeSlashes_cons hnext, ih hp, List.cons_append]
  | case3 => rfl

theorem getLast?_stripSlashes (p : List Char) : (stripSlashes p).getLast? ≠ some '/' := by
  induction p using List.reverseRecOn with
  | nil => simp [stripSlashes]
  | append_singleton p c ih =>
      rw [stripSlashes_concat]
      split
      · exact ih
      · rename_i hc
        rwa [List.getLast?_concat, ne_eq, Option.some_inj]

theorem exists_stripSlashes_append (p : List Char) :
    ∃ n, p = stripSlashes p ++ List.replicate n '/' := by
  induction p using List.reverseRecOn with
  | nil => exact ⟨0, rfl⟩
  | append_singleton p c ih =>
      rw [stripSlashes_concat]
      split
      · rename_i hc
        obtain ⟨n, hn⟩ := ih
        refine ⟨n + 1, ?_⟩
        rw [List.replicate_succ', ← List.append_assoc, ← hn, hc]
      · exact ⟨0, (List.append_nil _).symm⟩

theorem mergeSlashes_replicate_append (n : Nat) (p : List Char) :
    mergeSlashes (List.replicate (n + 1) '/' ++ p) = mergeSlashes ('/' :: p) := by
  induction n with
  | zero => rfl
  | succ n ih => exact ih

/-- Slashes at the end become one. -/
theorem mergeSlashes_concat_slash (p : List Char) :
    mergeSlashes (p ++ ['/']) = mergeSlashes (stripSlashes p) ++ ['/'] := by
  obtain ⟨n, hn⟩ := exists_stripSlashes_append p
  calc mergeSlashes (p ++ ['/'])
      = mergeSlashes (stripSlashes p ++ (List.replicate (n + 1) '/' ++ [])) := by
        rw [List.append_nil, List.replicate_succ', ← List.append_assoc, ← hn]
    _ = mergeSlashes (stripSlashes p) ++ ['/'] := by
        rw [mergeSlashes_append (getLast?_stripSlashes p), mergeSlashes_replicate_append]
        rfl

theorem stripSlashes_append {q : List Char} (hq : stripSlashes q ≠ []) (p : List Char) :
    stripSlashes (p ++ q) = p ++ stripSlashes q := by
  induction q using List.reverseRecOn with
  | nil => exact absurd rfl hq
  | append_singleton q c ih =>
      rw [stripSlashes_concat] at hq ⊢
      rw [← List.append_assoc, stripSlashes_concat]
      split at hq
      · rename_i hc
        rw [if_pos hc, if_pos hc, ih hq]
      · rename_i hc
        rw [if_neg hc, if_neg hc, List.append_assoc]

theorem stripSlashes_cons_ne_nil {c : Char} (hc : c ≠ '/') (p : List Char) :
    stripSlashes (c :: p) ≠ [] := by
  intro h
  have hall := List.rdropWhile_eq_nil_iff.1 h c List.mem_cons_self
  exact hc (of_decide_eq_true hall)

/-- Without wildcards only the slashes at the end are looked at. -/
theorem spelled_of_plain {path : List Char} (h : ∀ c ∈ path, isWildcard c = false) :
    spelled path = asDirectory path := by
  have hrest : (stripSlashes path).dropWhile (!isWildcard ·) = [] := by
    rw [List.dropWhile_eq_nil_iff]
    intro c hc
    rw [h c ((stripSlashes_isPrefix path).subset hc)]
    rfl
  rw [spelled, asDirectory, hrest]
  simp only [List.isEmpty_iff, if_true]

theorem rdropWhile_append_of_open {before stem : List Char} (hopen : Open before)
    (hstem : '/' ∉ stem) : (before ++ stem).rdropWhile (· ≠ '/') = before := by
  induction stem using List.reverseRecOn with
  | nil =>
      rcases hopen with rfl | ⟨q, rfl⟩
      · rfl
      · rw [List.append_nil, List.rdropWhile_concat, if_neg (by decide)]
  | append_singleton stem c ih =>
      have hc : c ≠ '/' := fun h => hstem (by simp [h])
      rw [← List.append_assoc, List.rdropWhile_concat, if_pos (decide_eq_true hc)]
      exact ih fun h => hstem (List.mem_append_left _ h)

/-- The first name with a wildcard starts behind the slash before its first wildcard. -/
theorem spelled_of_wild {before stem rest : List Char} {c : Char} (hopen : Open before)
    (hstem : '/' ∉ stem) (hplain : ∀ d ∈ before ++ stem, isWildcard d = false)
    (hc : isWildcard c = true) :
    spelled (before ++ stem ++ c :: rest) =
      asDirectory before ++ mergeSlashes (stem ++ c :: rest ++ ['/']) := by
  have hslash : c ≠ '/' := by
    rintro rfl
    exact absurd hc (by decide)
  have hne := stripSlashes_cons_ne_nil hslash rest
  obtain ⟨rest', hrest⟩ : ∃ rest', stripSlashes (c :: rest) = c :: rest' :=
    List.head?_eq_some_iff.1 (head?_stripSlashes hne)
  have hstrip : stripSlashes (before ++ stem ++ c :: rest) = before ++ stem ++ c :: rest' := by
    rw [stripSlashes_append hne, hrest]
  have hplain' : ∀ d ∈ before ++ stem, (!isWildcard d) = true := fun d hd => by
    rw [hplain d hd]
    rfl
  have htake : (before ++ stem ++ c :: rest').takeWhile (!isWildcard ·) = before ++ stem := by
    rw [List.takeWhile_append_of_pos hplain', List.takeWhile_cons_of_neg (by simp [hc]),
      List.append_nil]
  have hdrop : (before ++ stem ++ c :: rest').dropWhile (!isWildcard ·) = c :: rest' := by
    rw [List.dropWhile_append_of_pos hplain', List.dropWhile_cons_of_neg (by simp [hc])]
  have hbefore := rdropWhile_append_of_open hopen hstem
  have hlast : (before ++ stem).rtakeWhile (· ≠ '/') = stem := by
    have hsplit : (before ++ stem).rdropWhile (· ≠ '/') ++
        (before ++ stem).rtakeWhile (· ≠ '/') = before ++ stem :=
      List.rdropWhile_append_rtakeWhile
    rw [hbefore] at hsplit
    exact List.append_cancel_left hsplit
  have hstripped : stripSlashes (before ++ stem ++ c :: rest) ≠ [] := by
    rw [hstrip]
    simp
  calc spelled (before ++ stem ++ c :: rest)
      = asDirectory ((before ++ stem).rdropWhile (· ≠ '/')) ++
          mergeSlashes ((before ++ stem).rtakeWhile (· ≠ '/') ++ c :: rest') ++ ['/'] := by
        rw [spelled, hstrip, htake, hdrop]
        simp [asDirectory, List.rdropWhile, List.rtakeWhile]
    _ = asDirectory before ++ mergeSlashes (stem ++ c :: rest ++ ['/']) := by
        rw [hbefore, hlast, mergeSlashes_concat_slash, stripSlashes_append hne, hrest,
          List.append_assoc]

/-- In a path with wildcards, one of them is the first. -/
theorem exists_first_wildcard {p : List Char} (h : ∃ c ∈ p, isWildcard c = true) :
    ∃ q c r, p = q ++ c :: r ∧ isWildcard c = true ∧ ∀ d ∈ q, isWildcard d = false := by
  obtain ⟨c, hc⟩ := Option.isSome_iff_exists.1 (List.find?_isSome.2 h)
  obtain ⟨hwild, q, r, rfl, hq⟩ := List.find?_eq_some_iff_append.1 hc
  exact ⟨q, c, r, rfl, hwild, fun d hd => by simpa using hq d hd⟩

theorem Fronts.eq_spelled {path front : List Char} (h : Fronts path front) :
    front = spelled path := by
  cases h with
  | plain h => exact (spelled_of_plain h).symm
  | @wild before name after hopen hbefore hname hwild hafter =>
      obtain ⟨stem, c, rest, rfl, hc, hstem⟩ := exists_first_wildcard hwild
      have hplain : ∀ d ∈ before ++ stem, isWildcard d = false := fun d hd =>
        (List.mem_append.1 hd).elim (hbefore d) (hstem d)
      have hlast : (stem ++ c :: rest).getLast? ≠ some '/' := fun h =>
        hname (List.mem_of_getLast? h)
      have hstem' : '/' ∉ stem := fun h => hname (List.mem_append_left _ h)
      calc asDirectory before ++ (stem ++ c :: rest) ++ mergeSlashes (after ++ ['/'])
          = asDirectory before ++ mergeSlashes (stem ++ c :: rest ++ (after ++ ['/'])) := by
            rw [mergeSlashes_append hlast, mergeSlashes_of_not_mem hname, List.append_assoc]
        _ = asDirectory before ++ mergeSlashes (stem ++ c :: (rest ++ after) ++ ['/']) := by
            simp only [List.append_assoc, List.cons_append]
        _ = spelled (before ++ stem ++ c :: (rest ++ after)) :=
            (spelled_of_wild hopen hstem' hplain hc).symm
        _ = spelled (before ++ (stem ++ c :: rest) ++ after) := by
            simp only [List.append_assoc, List.cons_append]

/-- The first name with a wildcard is from the last slash before the first wildcard to the
first slash behind it. -/
theorem exists_wildcard_name {path : List Char} (h : ∃ c ∈ path, isWildcard c = true) :
    ∃ before name after, path = before ++ name ++ after ∧ Open before ∧
      (∀ c ∈ before, isWildcard c = false) ∧ '/' ∉ name ∧
      (∃ c ∈ name, isWildcard c = true) ∧ (after = [] ∨ after.head? = some '/') := by
  obtain ⟨plain, c, rest, rfl, hc, hplain⟩ := exists_first_wildcard h
  have hslash : c ≠ '/' := by
    rintro rfl
    exact absurd hc (by decide)
  refine ⟨plain.rdropWhile (· ≠ '/'),
    plain.rtakeWhile (· ≠ '/') ++ (c :: rest).takeWhile (· ≠ '/'),
    (c :: rest).dropWhile (· ≠ '/'), ?_, open_rdropWhile plain, ?_, ?_, ⟨c, ?_, hc⟩, ?_⟩
  · rw [List.append_assoc, List.append_assoc, List.takeWhile_append_dropWhile,
      ← List.append_assoc, List.rdropWhile_append_rtakeWhile]
  · exact fun d hd => hplain d ((List.rdropWhile_prefix _ plain).subset hd)
  · intro hmem
    rcases List.mem_append.1 hmem with hmem | hmem
    · exact absurd (List.mem_rtakeWhile_imp hmem) (by decide)
    · exact absurd (List.mem_takeWhile_imp hmem) (by decide)
  · rw [List.takeWhile_cons, if_pos (decide_eq_true hslash)]
    exact List.mem_append_right _ List.mem_cons_self
  · have hhead := List.head?_dropWhile_not (fun d => decide (d ≠ '/')) (c :: rest)
    cases hafter : (c :: rest).dropWhile (fun d => decide (d ≠ '/')) with
    | nil => exact .inl rfl
    | cons d after =>
        rw [hafter] at hhead
        exact .inr (by simpa using hhead)

/-- What a directory is written as is what may stand in front of what is below it. -/
theorem fronts_iff {path front : List Char} : Fronts path front ↔ front = spelled path := by
  refine ⟨Fronts.eq_spelled, ?_⟩
  rintro rfl
  by_cases hwild : ∃ c ∈ path, isWildcard c = true
  · obtain ⟨before, name, after, rfl, hopen, hbefore, hname, hmem, hafter⟩ :=
      exists_wildcard_name hwild
    have hfronts := Fronts.wild hopen hbefore hname hmem hafter
    rw [← hfronts.eq_spelled]
    exact hfronts
  · have hplain : ∀ c ∈ path, isWildcard c = false := by simpa using hwild
    rw [spelled_of_plain hplain]
    exact .plain hplain

end Path

/-! ## What paths stand for -/

namespace FileTree

variable {tree : FileTree} {entries : Directory} {d : String}

/-- What a path stands for: itself if it is no directory. Otherwise the paths of all entries
below at the end of names none of which is hidden, the last one that of a source file, in
increasing order; the path of the directory an entry is in must be short enough. -/
def Expands (tree : FileTree) (d : String) (found : List String) : Prop :=
  match tree.directory? d with
  | none => found = [d]
  | some entries =>
    ∃ front : String, Path.Fronts d.toList front.toList ∧ found.Pairwise (· < ·) ∧
      ∀ p, p ∈ found ↔ ∃ names e, Entry.Below entries names e ∧
        (∀ n ∈ names, n.toList.head? ≠ some '.') ∧ ".rb".toList <:+ e.name.toList ∧
        (front ++ "/".intercalate names.dropLast).utf8ByteSize < maxPathBytes ∧
        p = front ++ "/".intercalate names

/-- The path of the directory an entry is in is short only if those before it are. -/
theorem short_iff {front : String} {names : List String} :
    (front ++ "/".intercalate names).utf8ByteSize < maxPathBytes ↔
      front.utf8ByteSize < maxPathBytes ∧ Entry.Short front names := by
  constructor
  · intro h
    refine ⟨?_, .inr h⟩
    rw [String.utf8ByteSize_append] at h
    omega
  · rintro ⟨hfront, rfl | h⟩
    · simpa using hfront
    · exact h

/-- What a path is expanded to is what it stands for. -/
theorem expands_expand (htree : tree.Proper) (d : String) : tree.Expands d (tree.expand d) := by
  rw [Expands]
  cases hd : tree.directory? d with
  | none =>
      show tree.expand d = [d]
      rw [expand, hd]
  | some entries =>
      have hexpand : tree.expand d = sourcesIn (written d) entries := by
        rw [expand, hd]
        rfl
      refine ⟨written d, Path.fronts_iff.2 String.toList_ofList, ?_, fun p => ?_⟩
      · rw [hexpand]
        exact pairwise_sourcesIn (proper_of_directory? htree hd) _
      rw [mem_expand hd]
      constructor
      · rintro ⟨e, entries', names, hd', hfront, hlists, rfl⟩
        obtain rfl : entries = entries' := Option.some.inj (hd.symm.trans hd')
        obtain ⟨hbelow, hnames, hsource, hshort⟩ := Entry.lists_iff.1 hlists
        exact ⟨names, e, hbelow, hnames, hsource, short_iff.2 ⟨hfront, hshort⟩, rfl⟩
      · rintro ⟨names, e, hbelow, hnames, hsource, hlength, rfl⟩
        obtain ⟨hfront, hshort⟩ := short_iff.1 hlength
        have hlists := Entry.lists_iff.2 ⟨hbelow, hnames, hsource, hshort⟩
        exact ⟨e, entries, names, hd, hfront, hlists, rfl⟩

/-- A path stands for one list only. -/
theorem Expands.unique {found found' : List String} (h : tree.Expands d found)
    (h' : tree.Expands d found') : found = found' := by
  rw [Expands] at h h'
  cases hd : tree.directory? d with
  | none =>
      rw [hd] at h h'
      exact h.trans h'.symm
  | some entries =>
      rw [hd] at h h'
      obtain ⟨front, hfront, horder, hmem⟩ := h
      obtain ⟨front', hfront', horder', hmem'⟩ := h'
      obtain rfl : front = front' :=
        String.toList_inj.1 (hfront.eq_spelled.trans hfront'.eq_spelled.symm)
      exact NameSet.eq_of_pairwise_of_mem horder horder' fun p => (hmem p).trans (hmem' p).symm

/-- **Listings.** What a list of paths comes to is what each of them stands for, one after
the other, and nothing else is. -/
theorem discover_eq_iff (htree : tree.Proper) (paths found : List String) :
    tree.discover paths = found ↔
      ∃ parts, List.Forall₂ tree.Expands paths parts ∧ found = parts.flatten := by
  constructor
  · rintro rfl
    refine ⟨paths.map tree.expand, ?_, List.flatMap_def⟩
    rw [List.forall₂_map_right_iff, List.forall₂_same]
    exact fun d _ => expands_expand htree d
  · rintro ⟨parts, hparts, rfl⟩
    have heq : List.Forall₂ (fun d part => tree.expand d = part) paths parts :=
      hparts.imp fun d _ hpart => (expands_expand htree d).unique hpart
    rw [← List.forall₂_map_left_iff, List.forall₂_eq_eq_eq] at heq
    rw [discover, List.flatMap_def, heq]

/-- A directory of source files, one of them a directory, and one of them hidden, beside the
working directory. -/
def mixed : FileTree where
  root :=
    [.directory "a"
        [.file "c.rb" [], .directory "b.rb" [.file "d.rb" []], .file ".e.rb" []],
      .directory "home" []]
  here := ["home"]

/-- They are listed in order behind one slash. -/
theorem discover_eq_iff_mixed :
    mixed.Proper ∧ ∃ parts, List.Forall₂ mixed.Expands ["x", "../a//"] parts ∧
      ["x", "../a/b.rb", "../a/b.rb/d.rb", "../a/c.rb"] = parts.flatten := by
  have htree : mixed.Proper := by decide +kernel
  have hfound : mixed.discover ["x", "../a//"] =
      ["x", "../a/b.rb", "../a/b.rb/d.rb", "../a/c.rb"] := by
    rw [discover, List.flatMap_cons, List.flatMap_cons]
    have hx : mixed.expand "x" = ["x"] := by decide +kernel
    have ha : mixed.expand "../a//" = ["../a/b.rb", "../a/b.rb/d.rb", "../a/c.rb"] := by
      show List.mergeSort _ _ = _
      rw [List.mergeSort_eq_insertionSort]
      decide +kernel
    rw [hx, ha]
    rfl
  exact ⟨htree, (discover_eq_iff htree _ _).1 hfound⟩

/-! ### Where the path given is not what is written -/

/-- A directory with a wildcard in its name. -/
def bracketed : FileTree where
  root := [.directory "a" [.directory "x[1]" [.file "c.rb" []]]]

/-- One source file. -/
def lone : FileTree where
  root := [.file "a.rb" []]

/-- A dot, slashes, and a dot. -/
def stretched (n : Nat) : String := String.ofList ('.' :: List.replicate (n + 1) '/' ++ ['.'])

theorem toList_stretched (n : Nat) :
    (stretched n).toList = ['.'] ++ (List.replicate (n + 1) '/' ++ ['.']) :=
  String.toList_ofList

theorem utf8ByteSize_stretched (n : Nat) : (stretched n).utf8ByteSize = n + 3 := by
  have hslashes : ∀ m, (String.ofList (List.replicate m '/')).utf8ByteSize = m := by
    intro m
    induction m with
    | zero => rfl
    | succ m ih =>
        rw [List.replicate_succ', String.ofList_append, String.utf8ByteSize_append, ih]
        rfl
  have hdot : (String.ofList ['.']).utf8ByteSize = 1 := rfl
  rw [← String.ofList_toList (s := stretched n), toList_stretched, String.ofList_append,
    String.ofList_append, String.utf8ByteSize_append, String.utf8ByteSize_append, hslashes, hdot]
  omega

/-- However many the slashes are, the path stays where it is. -/
theorem directory?_stretched {n : Nat} (hn : n + 3 < maxPathBytes)
    (hhere : tree.directory? "./." = some entries) :
    tree.directory? (stretched n) = some entries := by
  have hsize := utf8ByteSize_stretched n
  have hne : stretched n ≠ "" := by
    intro h
    rw [h] at hsize
    exact absurd hsize (by simp)
  have hstart : tree.start (stretched n) = tree.start "./." := by
    rw [start, start, toList_stretched]
    rfl
  have hmerged : Path.mergeSlashes (stretched n).toList = "./.".toList := by
    rw [toList_stretched, Path.mergeSlashes_append (by decide), Path.mergeSlashes_replicate_append]
    rfl
  have hparts : (tree.start "./." ++ Path.names "./.").filter (· ≠ "") =
      (tree.start "./." ++ Path.names (stretched n)).filter (· ≠ "") := by
    rw [List.filter_append, List.filter_append, Path.filter_names, Path.filter_names, ← hmerged,
      Path.parts_mergeSlashes]
  obtain ⟨-, hfollow⟩ := follow_of_directory? hhere
  rw [directory?, lookup, if_neg hne, hsize, if_neg (Nat.not_le.2 hn), hstart,
    follow_congr hparts hfollow]

theorem asDirectory_stretched (n : Nat) :
    Path.asDirectory (stretched n).toList = (stretched n).toList ++ ['/'] := by
  have hstrip : Path.stripSlashes (stretched n).toList = (stretched n).toList := by
    rw [toList_stretched, ← List.append_assoc, Path.stripSlashes_concat, if_neg (by decide)]
  rw [Path.asDirectory, hstrip, if_neg (by simp [toList_stretched])]

theorem written_stretched (n : Nat) : written (stretched n) = stretched n ++ "/" := by
  have hplain : ∀ c ∈ (stretched n).toList, Path.isWildcard c = false := by
    intro c hc
    obtain rfl | ⟨-, rfl⟩ | rfl : c = '.' ∨ (n + 1 ≠ 0 ∧ c = '/') ∨ c = '.' := by
      simpa [toList_stretched, List.mem_replicate] using hc
    all_goals decide
  rw [written, Path.spelled_of_plain hplain, asDirectory_stretched, String.ofList_append,
    String.ofList_toList]

/-- What one would expect to be found: the path as it was given, with one slash at its end,
in front of what is below the directory. -/
def ListsAsGiven (tree : FileTree) (d p : String) : Prop :=
  ∃ entries names e, tree.directory? d = some entries ∧ Entry.Below entries names e ∧
    (∀ n ∈ names, n.toList.head? ≠ some '.') ∧ ".rb".toList <:+ e.name.toList ∧
    p = String.ofList (Path.asDirectory d.toList) ++ "/".intercalate names

/-- Slashes in a row go in front of a name with a wildcard, and a path that only just leads
to a directory is too long to find anything with. -/
theorem expected_not_found :
    (bracketed.Proper ∧ bracketed.ListsAsGiven "a//x[1]" "a//x[1]/c.rb" ∧
      bracketed.discover ["a//x[1]"] = ["a/x[1]/c.rb"]) ∧
    (lone.Proper ∧ lone.ListsAsGiven (stretched 4092) (stretched 4092 ++ "/" ++ "a.rb") ∧
      lone.discover [stretched 4092] = []) := by
  have hlone : lone.directory? (stretched 4092) = some lone.root :=
    directory?_stretched (by decide) rfl
  refine ⟨⟨by decide +kernel, ?_, by decide +kernel⟩, by decide +kernel, ?_, ?_⟩
  · exact ⟨[.file "c.rb" []], ["c.rb"], .file "c.rb" [], rfl, .here List.mem_cons_self,
      by decide, by decide, by decide⟩
  · refine ⟨lone.root, ["a.rb"], .file "a.rb" [], hlone, .here List.mem_cons_self, by decide,
      by decide, ?_⟩
    rw [asDirectory_stretched, String.ofList_append, String.ofList_toList,
      String.intercalate_singleton]
  · have hlong : maxPathBytes ≤ (written (stretched 4092)).utf8ByteSize := by
      rw [written_stretched, String.utf8ByteSize_append, utf8ByteSize_stretched]
      decide
    rw [discover, List.flatMap_singleton, expand, hlone]
    exact if_pos hlong

end FileTree

end RubySmells
