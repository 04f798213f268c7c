import RubySmells.Proofs.Derivation
import RubySmells.Proofs.Resolution

/-!
# The order in which a source file is read

Names are come upon in an order that is not quite that of the source: some
constructs read one of their fields ahead of everything else in them. What a bare
word becomes depends on the order of reading, and in most constructs the field
that is read ahead comes first in the source as well. In a conditional that is
written behind what it guards it does not.

* `Cst.readBefore` — of two places, the one that is read first, by the ways to
  them from the root; the sites of a source file are listed in this order
  (`Cst.pairwise_fileSites`);
* `Cst.overtakes` — where this order turns that of the source around;
* `Cst.Ordered` — ranges of bytes that agree with the shape of the tree, so that
  the order of the source can be read off where the nodes start.
-/

namespace RubySmells

theorem Site.Declares.use_ne {source : List UInt8} {d : Site} {name : String}
    (h : d.Declares source name) : d.use ≠ .noParameters := by
  intro huse
  rw [Site.Declares, huse] at h
  exact h

namespace Cst

/-! ## What is read first -/

/-- The fields that a construct reads ahead of its other parts, in order. -/
def fieldsAhead (c : Cst) : List String :=
  match c.role with
  | .methodDefinition => ["object", "parameters"]
  | .block => ["parameters"]
  | .conditional => ["condition"]
  | .call => ["receiver"]
  | .assignment =>
    match c.child? "left" with
    | some left =>
      if left.role = .identifier ∨ left.type = "left_assignment_list" then ["left"] else []
    | none => []
  | .loop => ["pattern"]
  | _ => []

/-- The positions of the children that are read ahead of the others, in order. -/
def ahead (c : Cst) : Standing → List Nat
  | .construct => c.fieldsAhead.filterMap fun f => c.children.findIdx? (fills f)
  | _ => []

/-- When a child has its turn to be read. Those that are not read ahead have it at
the same time, and are then read from left to right. -/
def turn (c : Cst) (standing : Standing) (i : Nat) : Nat :=
  (c.ahead standing).idxOf i

/-- Whether the first of two places below a node is read before the second. -/
def readBefore : Cst → Standing → Address → Address → Bool
  | c, standing, i :: a, j :: b =>
    if i = j then
      match c.children[i]? with
      | some d => d.readBefore (c.standingAt i standing) a b
      | none => false
    else
      decide (c.turn standing i < c.turn standing j ∨
        c.turn standing i = c.turn standing j ∧ i < j)
  | _, _, _, _ => false

/-- Whether the first of two places below a node is read before the second though
it comes after it: where the ways to them part, its part stands further to the
right, and is read ahead. -/
def overtakes : Cst → Standing → Address → Address → Bool
  | c, standing, i :: a, j :: b =>
    if i = j then
      match c.children[i]? with
      | some d => d.overtakes (c.standingAt i standing) a b
      | none => false
    else decide (j < i ∧ c.turn standing i < c.turn standing j)
  | _, _, _, _ => false

section Order

variable {c d : Cst} {standing : Standing} {i j : Nat} {a b : Address}

theorem readBefore_cons_self (hd : c.children[i]? = some d) (a b : Address) :
    c.readBefore standing (i :: a) (i :: b) = d.readBefore (c.standingAt i standing) a b := by
  rw [readBefore, if_pos rfl, hd]

theorem readBefore_cons_of_ne (h : i ≠ j) :
    c.readBefore standing (i :: a) (j :: b) = true ↔
      c.turn standing i < c.turn standing j ∨
        c.turn standing i = c.turn standing j ∧ i < j := by
  rw [readBefore, if_neg h, decide_eq_true_iff]

theorem readBefore_asymm (h : c.readBefore standing a b = true) :
    c.readBefore standing b a = false := by
  induction a generalizing c standing b with
  | nil => simp [readBefore] at h
  | cons i a ih =>
      cases b with
      | nil => simp [readBefore] at h
      | cons j b =>
          by_cases hij : i = j
          · subst hij
            rw [readBefore, if_pos rfl] at h ⊢
            cases hd : c.children[i]? with
            | none => rfl
            | some d =>
                rw [hd] at h
                exact ih h
          · rw [readBefore_cons_of_ne hij] at h
            rw [Bool.eq_false_iff, ne_eq, readBefore_cons_of_ne (Ne.symm hij)]
            omega

theorem readBefore_of_overtakes (h : c.overtakes standing a b = true) :
    c.readBefore standing a b = true := by
  induction a generalizing c standing b with
  | nil => simp [overtakes] at h
  | cons i a ih =>
      cases b with
      | nil => simp [overtakes] at h
      | cons j b =>
          by_cases hij : i = j
          · subst hij
            rw [overtakes, if_pos rfl] at h
            rw [readBefore, if_pos rfl]
            cases hd : c.children[i]? with
            | none =>
                rw [hd] at h
                exact absurd h (by simp)
            | some d =>
                rw [hd] at h
                exact ih h
          · rw [overtakes, if_neg hij, decide_eq_true_iff] at h
            rw [readBefore_cons_of_ne hij]
            exact .inl h.2

end Order

/-! ## The sites are listed as they are read -/

/-- Whether a site may be listed before another below a node. A method without
parameters is a site that declares nothing, and may be listed anywhere. -/
def Lists (c : Cst) (standing : Standing) (s t : Site) : Prop :=
  s.use = .noParameters ∨ t.use = .noParameters ∨
    c.readBefore standing s.address t.address = true

section Lists

variable {c d : Cst} {standing : Standing} {i j : Nat} {r q : Site}

theorem Lists.below (hd : c.children[i]? = some d) (h : d.Lists (c.standingAt i standing) r q) :
    c.Lists standing (r.under i) (q.under i) := by
  refine h.imp id (.imp id fun hread => ?_)
  exact (readBefore_cons_self hd r.address q.address).trans hread

theorem Lists.of_turn_lt (h : c.turn standing i < c.turn standing j) :
    c.Lists standing (r.under i) (q.under j) := by
  have hij : i ≠ j := by
    intro hij
    rw [hij] at h
    exact Nat.lt_irrefl _ h
  exact .inr (.inr ((readBefore_cons_of_ne hij).2 (.inl h)))

theorem Lists.of_lt (h : c.turn standing i = c.turn standing j) (hij : i < j) :
    c.Lists standing (r.under i) (q.under j) :=
  .inr (.inr ((readBefore_cons_of_ne (Nat.ne_of_lt hij)).2 (.inr ⟨h, hij⟩)))

theorem mem_ahead : i ∈ c.ahead .construct ↔
    ∃ f ∈ c.fieldsAhead, c.children.findIdx? (fills f) = some i := by
  rw [ahead, List.mem_filterMap]

/-- A child that is not read ahead has its turn after those that are. -/
theorem turn_of_not_mem (h : i ∉ c.ahead standing) :
    c.turn standing i = (c.ahead standing).length :=
  List.idxOf_eq_length h

theorem turn_lt_of_mem (h : i ∈ c.ahead standing) :
    c.turn standing i < (c.ahead standing).length :=
  List.idxOf_lt_length_of_mem h

/-- A node without a role reads its parts from left to right, whatever it is taken
for. -/
theorem Lists.of_target (hr : c.role = .plain) (h : c.Lists .target r q) :
    c.Lists .construct r q := by
  have hread : ∀ a b, c.readBefore .target a b = c.readBefore .construct a b := by
    intro a b
    cases a with
    | nil => rfl
    | cons i a =>
        cases b with
        | nil => rfl
        | cons j b =>
            simp [readBefore, turn, ahead, fieldsAhead, standingAt, hr]
  rw [Lists, hread] at h
  exact h

end Lists

/-- The sites of a node are listed as they are read, whether the node is taken as a
construct or as a target. -/
structure SitesOrdered (c : Cst) : Prop where
  sites : c.sites.Pairwise (c.Lists .construct)
  targets : c.targetSites.Pairwise (c.Lists .target)

theorem SitesOrdered.targetSitesOf {c : Cst} (h : SitesOrdered c) :
    c.targetSitesOf.Pairwise (c.Lists .construct) := by
  rw [Cst.targetSitesOf]
  split
  · exact .nil
  · split
    · exact List.pairwise_singleton _ _
    · split
      · rename_i htype
        have hplain : c.role = .plain := by
          rw [role]
          rcases htype with h | h | h <;> rw [h] <;> rfl
        exact h.targets.imp (Lists.of_target hplain)
      · exact h.sites

/-- The sites of siblings are in order if those of each sibling are, and those of
different siblings. -/
theorem pairwise_sitesIn {R : Site → Site → Prop} {fields : List String} {i : Nat}
    {cs : List Cst} (h : ∀ d ∈ cs, SitesOrdered d)
    (hsame : ∀ {j : Nat} {d : Cst} {r q : Site}, cs[j]? = some d → d.Lists .construct r q →
      r.under (i + j) ∈ sitesIn fields i cs → R (r.under (i + j)) (q.under (i + j)))
    (hacross : ∀ {j k : Nat} {r q : Site}, j < k → r.under j ∈ sitesIn fields i cs →
      q.under k ∈ sitesIn fields i cs → R (r.under j) (q.under k)) :
    (sitesIn fields i cs).Pairwise R := by
  induction cs generalizing i fields with
  | nil =>
      rw [sitesIn]
      exact .nil
  | cons c cs ih =>
      -- What is left after the first sibling is in order if it is part of the list.
      have hlater : ∀ {fields' : List String},
          (∀ s ∈ sitesIn fields' (i + 1) cs, s ∈ sitesIn fields i (c :: cs)) →
          (sitesIn fields' (i + 1) cs).Pairwise R := by
        intro fields' hsub
        refine ih (fun d hd => h d (List.mem_cons_of_mem _ hd)) ?_ ?_
        · intro j d r q hd hrq hr
          have hr := hsub _ hr
          rw [Nat.add_right_comm, Nat.add_assoc] at hr ⊢
          exact hsame (by simpa using hd) hrq hr
        · intro j k r q hjk hr hq
          exact hacross hjk (hsub _ hr) (hsub _ hq)
      rw [sitesIn] at hsame hacross hlater ⊢
      cases hfind : fields.find? (fun f => c.fills f) with
      | some f =>
          simp only [hfind] at hlater
          exact hlater fun s hs => hs
      | none =>
          simp only [hfind] at hsame hacross hlater
          by_cases hnamed : c.named = true
          · simp only [if_pos hnamed] at hsame hacross hlater ⊢
            refine List.pairwise_append.2 ⟨?_, hlater fun s hs => List.mem_append_right _ hs, ?_⟩
            · refine List.pairwise_map.2 ((h c List.mem_cons_self).sites.imp_of_mem ?_)
              intro r q hr _ hrq
              exact hsame (j := 0) rfl hrq (List.mem_append_left _ (List.mem_map_of_mem hr))
            · intro s hs t ht
              obtain ⟨r, -, rfl⟩ := List.mem_map.1 hs
              obtain ⟨j, d, -, ⟨q, -, rfl⟩, -⟩ := mem_sitesIn ht
              exact hacross (by omega) (List.mem_append_left _ hs) (List.mem_append_right _ ht)
          · simp only [if_neg hnamed] at hlater ⊢
            exact hlater fun s hs => hs

theorem pairwise_targetSitesIn {R : Site → Site → Prop} {i : Nat} {cs : List Cst}
    (hsame : ∀ (j : Nat) (d : Cst), cs[j]? = some d →
      (d.targetSitesOf.map (.under (i + j))).Pairwise R)
    (hacross : ∀ {j k : Nat} {r q : Site}, j < k → R (r.under j) (q.under k)) :
    (targetSitesIn i cs).Pairwise R := by
  induction cs generalizing i with
  | nil =>
      rw [targetSitesIn]
      exact .nil
  | cons c cs ih =>
      have hlater : ∀ (j : Nat) (d : Cst), cs[j]? = some d →
          (d.targetSitesOf.map (.under (i + 1 + j))).Pairwise R := by
        intro j d hd
        rw [Nat.add_right_comm]
        exact hsame (j + 1) d (by simpa using hd)
      rw [targetSitesIn_cons]
      refine List.pairwise_append.2 ⟨hsame 0 c rfl, ih hlater, ?_⟩
      intro s hs t ht
      obtain ⟨r, -, rfl⟩ := List.mem_map.1 hs
      obtain ⟨j, d, -, q, -, rfl⟩ := mem_targetSitesIn ht
      exact hacross (by omega)

/-- A site among siblings is not that of a field that is passed over. -/
theorem findIdx?_ne_of_under_mem {fields : List String} {cs : List Cst} {r : Site} {j : Nat}
    (h : r.under j ∈ sitesIn fields 0 cs) {f : String} (hf : f ∈ fields) :
    cs.findIdx? (fills f) ≠ some j := by
  obtain ⟨k, d, -, ⟨q, -, heq⟩, hother⟩ := mem_sitesIn h
  have haddress := congrArg Site.address heq
  simp only [Site.under, Nat.zero_add, List.cons.injEq] at haddress
  rw [haddress.1]
  exact hother f hf

theorem pairwise_inScope {c : Cst} {standing : Standing} {ss : List Site} (inherits : Bool)
    (h : ss.Pairwise (c.Lists standing)) :
    (ss.map (.inScope inherits)).Pairwise (c.Lists standing) :=
  List.pairwise_map.2 (h.imp id)

/-- Scopes have no part in the order of the sites. -/
theorem pairwise_append_inScope {c : Cst} {standing : Standing} {ss ts : List Site}
    (inherits : Bool) (h : (ss ++ ts).Pairwise (c.Lists standing)) :
    (ss ++ ts.map (Site.inScope inherits)).Pairwise (c.Lists standing) := by
  obtain ⟨hss, hts, hacross⟩ := List.pairwise_append.1 h
  refine List.pairwise_append.2 ⟨hss, pairwise_inScope inherits hts, ?_⟩
  intro s hs t ht
  obtain ⟨q, hq, rfl⟩ := List.mem_map.1 ht
  exact hacross s hs q hq

/-- Methods without parameters may be listed in between. -/
theorem pairwise_among {c : Cst} {standing : Standing} {ss ts selves : List Site}
    (hselves : ∀ s ∈ selves, s.use = .noParameters)
    (h : (ss ++ ts).Pairwise (c.Lists standing)) :
    (ss ++ selves ++ ts).Pairwise (c.Lists standing) := by
  obtain ⟨hss, hts, hacross⟩ := List.pairwise_append.1 h
  have hamong : selves.Pairwise (c.Lists standing) :=
    List.pairwise_of_forall_mem_list fun s hs _ _ => .inl (hselves s hs)
  refine List.pairwise_append.2 ⟨List.pairwise_append.2 ⟨hss, hamong, ?_⟩, hts, ?_⟩
  · exact fun s _ t ht => .inr (.inl (hselves t ht))
  · intro s hs t ht
    rcases List.mem_append.1 hs with hs | hs
    · exact hacross s hs t ht
    · exact .inl (hselves s hs)

section Below

variable {c : Cst} (h : ∀ d ∈ c.children, SitesOrdered d) {fields : List String}
  (hfields : ∀ f ∈ c.fieldsAhead, f ∈ fields)

include hfields

/-- A site that is not in a field read ahead has its turn after those that are. -/
theorem turn_of_under_mem {r : Site} {j : Nat} (hr : r.under j ∈ sitesIn fields 0 c.children) :
    c.turn .construct j = (c.ahead .construct).length := by
  refine turn_of_not_mem fun hj => ?_
  obtain ⟨f, hf, hfind⟩ := mem_ahead.1 hj
  exact findIdx?_ne_of_under_mem hr (hfields f hf) hfind

theorem lists_sitesAt_sitesIn {reading : Reading} {field : String} (hfield : field ∈ c.fieldsAhead)
    {s t : Site} (hs : s ∈ sitesAt reading field 0 c.children)
    (ht : t ∈ sitesIn fields 0 c.children) : c.Lists .construct s t := by
  obtain ⟨j, d, hj, -, -, r, -, rfl⟩ := mem_sitesAt hs
  obtain ⟨k, -, -, ⟨q, -, rfl⟩, -⟩ := mem_sitesIn ht
  refine .of_turn_lt ?_
  rw [turn_of_under_mem hfields ht, Nat.zero_add]
  exact turn_lt_of_mem (mem_ahead.2 ⟨field, hfield, hj⟩)

include h

/-- The parts of a construct that are not read ahead. -/
theorem pairwise_parts (hloop : c.role = .loop → "pattern" ∈ fields) :
    (sitesIn fields 0 c.children).Pairwise (c.Lists .construct) := by
  refine pairwise_sitesIn h ?_ ?_
  · intro j d r q hd hrq hr
    rw [Nat.zero_add] at hr ⊢
    refine .below hd ?_
    rw [standingAt, if_neg]
    · exact hrq
    · rintro ⟨hrole, hpattern⟩
      exact findIdx?_ne_of_under_mem hr (hloop hrole) hpattern
  · intro j k r q hjk hr hq
    refine .of_lt ?_ hjk
    rw [turn_of_under_mem hfields hr, turn_of_under_mem hfields hq]

omit hfields

theorem pairwise_field {reading : Reading} {field : String}
    (hread : ∀ j d, c.children.findIdx? (fills field) = some j → c.child? field = some d →
      SitesOrdered d → (d.readAs reading).Pairwise (d.Lists (c.standingAt j .construct))) :
    (sitesAt reading field 0 c.children).Pairwise (c.Lists .construct) := by
  rcases sitesAt_cases reading field 0 c.children with ⟨-, hnil⟩ | ⟨j, d, hj, hd, hfind, hsites⟩
  · rw [hnil]
    exact .nil
  · rw [hsites, Nat.zero_add]
    have hpairwise := hread j d hj hfind (h d (List.mem_of_getElem? hd))
    exact List.pairwise_map.2 (hpairwise.imp (.below hd))

/-- A field that is simplified as an expression. -/
theorem pairwise_expression (field : String) (hloop : c.role ≠ .loop) :
    (sitesAt .expression field 0 c.children).Pairwise (c.Lists .construct) := by
  refine pairwise_field h fun j d _ _ hd => ?_
  rw [standingAt, if_neg fun hj => hloop hj.1]
  exact hd.sites

theorem pairwise_parameters :
    (sitesAt .parameters "parameters" 0 c.children).Pairwise (c.Lists .construct) :=
  pairwise_field h fun _ _ _ _ _ => List.pairwise_singleton _ _

/-- A construct that reads one field ahead. -/
theorem pairwise_led {reading : Reading} {field : String} (hahead : c.fieldsAhead = [field])
    (hfield : field ∈ fields) (hloop : c.role = .loop → "pattern" ∈ fields)
    (hfirst : (sitesAt reading field 0 c.children).Pairwise (c.Lists .construct)) :
    (sitesAt reading field 0 c.children ++ sitesIn fields 0 c.children).Pairwise
      (c.Lists .construct) := by
  have hfields : ∀ f ∈ c.fieldsAhead, f ∈ fields := by
    rw [hahead]
    simpa using hfield
  refine List.pairwise_append.2 ⟨hfirst, pairwise_parts h hfields hloop, ?_⟩
  intro s hs t ht
  exact lists_sitesAt_sitesIn hfields (by simp [hahead]) hs ht

omit h in
/-- The owner of a method is read before its parameters. -/
theorem lists_owner_parameters (hr : c.role = .methodDefinition) {s t : Site}
    (hs : s ∈ sitesAt .expression "object" 0 c.children)
    (ht : t ∈ sitesAt .parameters "parameters" 0 c.children) : c.Lists .construct s t := by
  obtain ⟨j, d, hj, -, -, r, -, rfl⟩ := mem_sitesAt hs
  obtain ⟨k, e, hk, -, -, q, -, rfl⟩ := mem_sitesAt ht
  have hne : j ≠ k := by
    rintro rfl
    exact findIdx?_fills_ne (by simp) hj hk
  have hahead : c.ahead .construct = [j, k] := by
    simp [ahead, fieldsAhead, hr, hj, hk]
  refine .of_turn_lt ?_
  rw [Nat.zero_add, Nat.zero_add, turn, turn, hahead]
  have hkj : (j == k) = false := beq_eq_false_iff_ne.2 hne
  simp [List.idxOf_cons, hkj]

theorem pairwise_method (hr : c.role = .methodDefinition) :
    c.sites.Pairwise (c.Lists .construct) := by
  have hloop : c.role ≠ .loop := by simp [hr]
  have hfields : ∀ f ∈ c.fieldsAhead, f ∈ ["object", "name", "parameters"] := by
    simp [fieldsAhead, hr]
  have hinner : (sitesAt .parameters "parameters" 0 c.children ++
      sitesIn ["object", "name", "parameters"] 0 c.children).Pairwise (c.Lists .construct) := by
    have hparts := pairwise_parts h hfields fun hloop => absurd hloop (by simp [hr])
    refine List.pairwise_append.2 ⟨pairwise_parameters h, hparts, ?_⟩
    exact fun s hs t => lists_sitesAt_sitesIn hfields (by simp [fieldsAhead, hr]) hs
  have hall : (sitesAt .expression "object" 0 c.children ++
      (sitesAt .parameters "parameters" 0 c.children ++
        sitesIn ["object", "name", "parameters"] 0 c.children)).Pairwise
          (c.Lists .construct) := by
    refine List.pairwise_append.2 ⟨pairwise_expression h "object" hloop, hinner, ?_⟩
    intro s hs t ht
    rcases List.mem_append.1 ht with ht | ht
    · exact lists_owner_parameters hr hs ht
    · exact lists_sitesAt_sitesIn hfields (by simp [fieldsAhead, hr]) hs ht
  obtain ⟨i, cs⟩ := c
  rw [sites, hr]
  refine pairwise_among ?_ (pairwise_append_inScope false hall)
  intro s hs
  split at hs
  · obtain rfl := List.mem_singleton.1 hs
    rfl
  · exact absurd hs List.not_mem_nil

theorem pairwise_assignment (hr : c.role = .assignment) :
    c.sites.Pairwise (c.Lists .construct) := by
  have hloop : c.role ≠ .loop := by simp [hr]
  have hparts : c.fieldsAhead = [] →
      (sitesIn [] 0 c.children).Pairwise (c.Lists .construct) := fun hahead =>
    pairwise_parts h (by simp [hahead]) (by simp [hr])
  have htarget : ∀ left, c.child? "left" = some left →
      left.role = .identifier ∨ left.type = "left_assignment_list" →
      (sitesAt .target "left" 0 c.children ++ sitesIn ["left"] 0 c.children).Pairwise
        (c.Lists .construct) := by
    intro left hleft hword
    have hahead : c.fieldsAhead = ["left"] := by simp [fieldsAhead, hr, hleft, hword]
    refine pairwise_led h hahead (by simp) (by simp [hr]) (pairwise_field h ?_)
    intro j d hj hd hordered
    obtain rfl : left = d := Option.some.inj (hleft.symm.trans hd)
    rw [standingAt, if_neg fun hj => hloop hj.1, readAs]
    split
    · exact List.pairwise_singleton _ _
    · rename_i hnot
      have hplain : left.role = .plain := by
        rw [role, hword.resolve_left hnot]
        rfl
      exact hordered.targets.imp (Lists.of_target hplain)
  have hnone : c.child? "left" = none → c.fieldsAhead = [] := fun hleft => by
    simp [fieldsAhead, hr, hleft]
  have hother : ∀ left, c.child? "left" = some left →
      ¬ (left.role = .identifier ∨ left.type = "left_assignment_list") →
      c.fieldsAhead = [] := fun left hleft hword => by
    rw [fieldsAhead, hr]
    simp only [hleft, if_neg hword]
  obtain ⟨i, cs⟩ := c
  rw [sites, hr]
  simp only
  split
  · rename_i hleft
    exact hparts (hnone hleft)
  · rename_i left hleft
    split
    · rename_i hword
      exact htarget left hleft hword
    · rename_i hword
      exact hparts (hother left hleft hword)

theorem pairwise_loop (hr : c.role = .loop) : c.sites.Pairwise (c.Lists .construct) := by
  have hahead : c.fieldsAhead = ["pattern"] := by simp [fieldsAhead, hr]
  have hpattern : (sitesAt .target "pattern" 0 c.children).Pairwise (c.Lists .construct) := by
    refine pairwise_field h fun j d hj _ hordered => ?_
    rw [standingAt, if_pos ⟨hr, hj⟩, readAs]
    split
    · exact List.pairwise_singleton _ _
    · exact hordered.targets
  have hsites := pairwise_led h hahead (List.mem_singleton_self "pattern") (by simp) hpattern
  obtain ⟨i, cs⟩ := c
  rw [sites, hr]
  exact hsites

theorem pairwise_targets (standing : Standing) (hahead : c.ahead standing = [])
    (hstanding : ∀ j, c.standingAt j standing = .construct) :
    (targetSitesIn 0 c.children).Pairwise (c.Lists standing) := by
  refine pairwise_targetSitesIn ?_ ?_
  · intro j d hd
    have hsites := (h d (List.mem_of_getElem? hd)).targetSitesOf
    rw [← hstanding j] at hsites
    rw [Nat.zero_add]
    exact List.pairwise_map.2 (hsites.imp (.below hd))
  · intro j k r q hjk
    refine .of_lt ?_ hjk
    rw [turn, turn, hahead]
    rfl

theorem pairwise_sites : c.sites.Pairwise (c.Lists .construct) := by
  cases hr : c.role with
  | methodDefinition => exact pairwise_method h hr
  | assignment => exact pairwise_assignment h hr
  | loop => exact pairwise_loop h hr
  | comment =>
      obtain ⟨i, cs⟩ := c
      rw [sites, hr]
      exact .nil
  | parameterList | identifier =>
      obtain ⟨i, cs⟩ := c
      rw [sites, hr]
      exact List.pairwise_singleton _ _
  | block =>
      have hahead : c.fieldsAhead = ["parameters"] := by simp [fieldsAhead, hr]
      have hsites := pairwise_led h hahead (List.mem_singleton_self "parameters") (by simp [hr])
        (pairwise_parameters h)
      obtain ⟨i, cs⟩ := c
      rw [sites, hr]
      exact pairwise_inScope true hsites
  | conditional =>
      have hahead : c.fieldsAhead = ["condition"] := by simp [fieldsAhead, hr]
      have hsites := pairwise_led h hahead (List.mem_singleton_self "condition") (by simp [hr])
        (pairwise_expression h "condition" (by simp [hr]))
      obtain ⟨i, cs⟩ := c
      rw [sites, hr]
      exact hsites
  | call =>
      have hahead : c.fieldsAhead = ["receiver"] := by simp [fieldsAhead, hr]
      have hfields : "receiver" ∈ ["receiver", "method"] := List.mem_cons_self
      have hsites := pairwise_led h hahead hfields (by simp [hr])
        (pairwise_expression h "receiver" (by simp [hr]))
      obtain ⟨i, cs⟩ := c
      rw [sites, hr]
      exact hsites
  | wrapper | group | plain =>
      have hparts : (sitesIn [] 0 c.children).Pairwise (c.Lists .construct) :=
        pairwise_parts h (by simp [fieldsAhead, hr]) (by simp [hr])
      obtain ⟨i, cs⟩ := c
      rw [sites, hr]
      exact hparts
  | gate =>
      have hparts : (sitesIn [] 0 c.children).Pairwise (c.Lists .construct) :=
        pairwise_parts h (by simp [fieldsAhead, hr]) (by simp [hr])
      obtain ⟨i, cs⟩ := c
      rw [sites, hr]
      exact pairwise_inScope false hparts
  | classDefinition | moduleDefinition =>
      have hparts : (sitesIn ["name"] 0 c.children).Pairwise (c.Lists .construct) :=
        pairwise_parts h (by simp [fieldsAhead, hr]) (by simp [hr])
      obtain ⟨i, cs⟩ := c
      rw [sites, hr]
      exact pairwise_inScope false hparts
  | exceptionVariable =>
      have htargets := pairwise_targets h .construct (by simp [ahead, fieldsAhead, hr])
        (by simp [standingAt, hr])
      obtain ⟨i, cs⟩ := c
      rw [sites, hr]
      exact htargets

end Below

theorem sitesOrdered (c : Cst) : SitesOrdered c := by
  induction c using Cst.induction with
  | step c ih =>
      constructor
      · exact pairwise_sites ih
      · have htargets := pairwise_targets ih .target rfl fun _ => rfl
        obtain ⟨i, cs⟩ := c
        rw [targetSites]
        exact htargets

/-- The sites of a source file are listed in the order in which they are read. -/
theorem pairwise_fileSites (root : Cst) : root.fileSites.Pairwise (root.Lists .file) := by
  refine pairwise_inScope false (pairwise_sitesIn (fun d _ => sitesOrdered d) ?_ ?_)
  · intro j d r q hd hrq _
    rw [Nat.zero_add]
    exact .below hd hrq
  · exact fun hjk _ _ => .of_lt rfl hjk

theorem readBefore_of_lt {root : Cst} {m k : Nat} {d s : Site}
    (hd : root.fileSites[m]? = some d) (hs : root.fileSites[k]? = some s)
    (hdeclares : d.use ≠ .noParameters) (huse : s.use ≠ .noParameters) (hmk : m < k) :
    root.readBefore .file d.address s.address = true := by
  obtain ⟨hm, rfl⟩ := List.getElem?_eq_some_iff.1 hd
  obtain ⟨hk, rfl⟩ := List.getElem?_eq_some_iff.1 hs
  have hlists := List.pairwise_iff_getElem.1 root.pairwise_fileSites m k hm hk hmk
  exact (hlists.resolve_left hdeclares).resolve_left huse

/-! ## The order of the source -/

/-- Whether the ranges of bytes agree with the shape of a tree: no range ends before
it starts, what stands below a node is within its range, and siblings follow one
another without overlap. -/
def Ordered (root : Cst) : Prop :=
  ∀ c ∈ root.preorder, c.info.startByte ≤ c.info.endByte ∧
    (∀ d ∈ c.children, c.info.startByte ≤ d.info.startByte ∧ d.info.endByte ≤ c.info.endByte) ∧
    c.children.Pairwise fun d e => d.info.endByte ≤ e.info.startByte

instance (root : Cst) : Decidable root.Ordered :=
  inferInstanceAs (Decidable (∀ c ∈ root.preorder, _ ∧ _ ∧ _))

section Ordered

variable {c d : Cst}

theorem Ordered.child (h : c.Ordered) (hd : d ∈ c.children) : d.Ordered := by
  intro e he
  exact h e (mem_preorder.2 (.inr ⟨d, hd, he⟩))

/-- What stands somewhere below a node is within its range. -/
theorem Ordered.within (h : c.Ordered) {a : Address} (ha : c.at? a = some d) :
    c.info.startByte ≤ d.info.startByte ∧ d.info.startByte ≤ d.info.endByte ∧
      d.info.endByte ≤ c.info.endByte := by
  induction a generalizing c with
  | nil =>
      obtain rfl := Option.some.inj ha
      exact ⟨Nat.le_refl _, (h c (mem_preorder_self c)).1, Nat.le_refl _⟩
  | cons i a ih =>
      obtain ⟨e, he, ha⟩ := exists_child_of_at? ha
      have hmem := List.mem_of_getElem? he
      have hrange := (h c (mem_preorder_self c)).2.1 e hmem
      have hbelow := ih (h.child hmem) ha
      omega

/-- What stands below a sibling further to the left starts no later. -/
theorem Ordered.start_le (h : c.Ordered) {i j : Nat} {a b : Address} {e : Cst} (hij : i < j)
    (ha : c.at? (i :: a) = some d) (hb : c.at? (j :: b) = some e) :
    d.info.startByte ≤ e.info.startByte := by
  obtain ⟨p, hi, ha⟩ := exists_child_of_at? ha
  obtain ⟨q, hj, hb⟩ := exists_child_of_at? hb
  have hp := (h.child (List.mem_of_getElem? hi)).within ha
  have hq := (h.child (List.mem_of_getElem? hj)).within hb
  obtain ⟨hi', rfl⟩ := List.getElem?_eq_some_iff.1 hi
  obtain ⟨hj', rfl⟩ := List.getElem?_eq_some_iff.1 hj
  have hsiblings := List.pairwise_iff_getElem.1 (h c (mem_preorder_self c)).2.2
    i j hi' hj' hij
  omega

/-- What is read before something that starts earlier overtakes it. -/
theorem Ordered.overtakes (h : c.Ordered) {standing : Standing} {a b : Address} {e : Cst}
    (ha : c.at? a = some d) (hb : c.at? b = some e)
    (hread : c.readBefore standing a b = true) (hlt : e.info.startByte < d.info.startByte) :
    c.overtakes standing a b = true := by
  induction a generalizing c standing b with
  | nil => simp [readBefore] at hread
  | cons i a ih =>
      cases b with
      | nil => simp [readBefore] at hread
      | cons j b =>
          by_cases hij : i = j
          · subst hij
            obtain ⟨p, hi, ha⟩ := exists_child_of_at? ha
            rw [at?_cons hi] at hb
            rw [readBefore_cons_self hi] at hread
            rw [Cst.overtakes, if_pos rfl, hi]
            exact ih (h.child (List.mem_of_getElem? hi)) ha hb hread
          · have hnot : ¬ i < j := fun hij => Nat.not_lt.2 (h.start_le hij ha hb) hlt
            rw [readBefore_cons_of_ne hij] at hread
            rw [Cst.overtakes, if_neg hij, decide_eq_true_iff]
            omega

end Ordered

/-! ## Resolution by position in the source -/

/-- Whether a site starts before another in the source and is not overtaken by it,
or starts after it and overtakes it. -/
def Leads (root : Cst) (d s : Site) : Prop :=
  d.node.info.startByte < s.node.info.startByte ∧
      root.overtakes .file s.address d.address = false ∨
    s.node.info.startByte < d.node.info.startByte ∧
      root.overtakes .file d.address s.address = true

theorem lt_of_leads {root : Cst} (hordered : root.Ordered) {m k : Nat} {d s : Site}
    (hd : root.fileSites[m]? = some d) (hs : root.fileSites[k]? = some s)
    (hdeclares : d.use ≠ .noParameters) (huse : s.use ≠ .noParameters)
    (hleads : root.Leads d s) : m < k := by
  rcases Nat.lt_trichotomy m k with hmk | rfl | hkm
  · exact hmk
  · obtain rfl := Option.some.inj (hd.symm.trans hs)
    exact absurd hleads (by simp [Leads])
  · have hread := readBefore_of_lt hs hd huse hdeclares hkm
    have hnode := (mem_fileSites (List.mem_of_getElem? hs)).1
    have hnode' := (mem_fileSites (List.mem_of_getElem? hd)).1
    rcases hleads with ⟨hlt, hnot⟩ | ⟨-, hovertakes⟩
    · rw [hordered.overtakes hnode hnode' hread hlt] at hnot
      exact absurd hnot (by simp)
    · have hback := readBefore_asymm hread
      rw [readBefore_of_overtakes hovertakes] at hback
      exact absurd hback (by simp)

/-- The node of a bare word: a variable if an earlier site declares its text where
that is visible from it, and a call without receiver otherwise. -/
theorem exists_node_of_word (source : List UInt8) {root : Cst} {k : Nat} {s : Site}
    (hs : root.fileSites[k]? = some s) (huse : s.use = .word) :
    ∃ isLocal, (root.simplify source).siteNodes[k]? = some (s.node.resolved source isLocal) ∧
      (isLocal = true ↔
        root.DeclaredBefore source k s.address (s.node.text source)) := by
  have haccounts := accounts_simplify source root
  have hk := haccounts.length_eq ▸ (List.getElem?_eq_some_iff.1 hs).1
  have hn := List.getElem?_eq_getElem hk
  have hbecomes := haccounts.becomes k s _ hs hn
  rw [propext (knows_iff_declaredBefore hs _), Site.Becomes, huse] at hbecomes
  obtain ⟨-, isLocal, hlocal, hnode⟩ := hbecomes
  exact ⟨isLocal, by rw [hn, hnode], hlocal⟩

end Cst

/-- **Resolution by position.** In a source file whose ranges of bytes agree with the
shape of its tree, a bare word becomes a variable if a visible declaration of its
text starts before it, unless the word overtakes the declaration, and a call
without receiver if every visible declaration starts after it, unless one
overtakes the word. Where there is overtaking, it is the other way round. -/
theorem Source.word_resolved_by_position (grammar : Grammar) (path : String)
    (source : List UInt8) (h : (grammar source).hasError = false)
    (hordered : (grammar source).root.Ordered) :
    let root := (grammar source).root
    ∃ tree, Source.parse grammar path source = .ok tree ∧
      ∀ (k : Nat) (s : Site), root.fileSites[k]? = some s → s.use = .word →
        let name := s.node.text source
        ((∃ d ∈ root.fileSites, d.Declares source name ∧
            root.VisibleFrom d.address s.address ∧ root.Leads d s) →
          tree.siteNodes[k]? =
            some (.mk (s.node.header .localVariable (some name)) [.text name])) ∧
        ((∀ d ∈ root.fileSites, d.Declares source name →
            root.VisibleFrom d.address s.address → root.Leads s d) →
          tree.siteNodes[k]? =
            some (.mk (s.node.header .call (some name)) [.absent, .text name])) := by
  intro root
  refine ⟨_, parse_eq h path, ?_⟩
  intro k s hs huse name
  have hword : s.use ≠ .noParameters := by simp [huse]
  obtain ⟨isLocal, hnode, hlocal⟩ := Cst.exists_node_of_word source hs huse
  constructor
  · rintro ⟨d, hd, hdeclares, hvisible, hleads⟩
    obtain ⟨m, hm⟩ := List.getElem?_of_mem hd
    have hmk := Cst.lt_of_leads hordered hm hs hdeclares.use_ne hword hleads
    have hmem : d ∈ root.fileSites.take k := by
      refine List.mem_of_getElem? (i := m) ?_
      rw [List.getElem?_take, if_pos hmk, hm]
    obtain rfl := hlocal.2 ⟨d, hmem, hdeclares, hvisible⟩
    exact hnode
  · intro hafter
    have hnot : ¬ root.DeclaredBefore source k s.address name := by
      rintro ⟨d, hd, hdeclares, hvisible⟩
      obtain ⟨m, hm⟩ := List.getElem?_of_mem hd
      rw [List.getElem?_take] at hm
      split at hm
      · rename_i hmk
        have hleads := hafter d (List.mem_of_getElem? hm) hdeclares hvisible
        have hkm := Cst.lt_of_leads hordered hs hm hword hdeclares.use_ne hleads
        omega
      · exact absurd hm (by simp)
    cases isLocal with
    | true => exact absurd (hlocal.1 rfl) hnot
    | false => exact hnode

/-- The source `x`, `x = 1`, `x` on three lines. -/
def Source.wordAssignmentWord : List UInt8 := "x\nx = 1\nx\n".toUTF8.toList

def Cst.wordAssignmentWord : Cst :=
  .mk { type := "program", endByte := 10 }
    [.mk { type := "identifier", endByte := 1 } [],
     .mk { type := "assignment", startByte := 2, endByte := 7, row := 1 }
      [.mk { type := "identifier", field := "left", startByte := 2, endByte := 3, row := 1 } [],
       .mk { type := "=", named := false, startByte := 4, endByte := 5, row := 1 } [],
       .mk { type := "integer", field := "right", startByte := 6, endByte := 7, row := 1 } []],
     .mk { type := "identifier", startByte := 8, endByte := 9, row := 2 } []]

/-- The first `x` is a call and the last one a variable. -/
theorem Source.word_resolved_by_position_wordAssignmentWord :
    (Grammar.constant .wordAssignmentWord Source.wordAssignmentWord).hasError = false ∧
    Cst.wordAssignmentWord.Ordered ∧
    ∃ tree n m, Source.parse (.constant .wordAssignmentWord) "a.rb"
        Source.wordAssignmentWord = .ok tree ∧
      tree.siteNodes[0]? = some n ∧ n.kind = .call ∧
      tree.siteNodes[2]? = some m ∧ m.kind = .localVariable := by
  have hordered : Cst.wordAssignmentWord.Ordered := by decide +kernel
  obtain ⟨tree, hparse, hwords⟩ := word_resolved_by_position (.constant .wordAssignmentWord)
    "a.rb" Source.wordAssignmentWord rfl hordered
  have hsites : Cst.wordAssignmentWord.fileSites = [_, _, _] := rfl
  have hfirst : Cst.wordAssignmentWord.fileSites[0]? = some _ := rfl
  have htarget : Cst.wordAssignmentWord.fileSites[1]? = some _ := rfl
  have hlast : Cst.wordAssignmentWord.fileSites[2]? = some _ := rfl
  refine ⟨rfl, hordered, tree, _, _, hparse, (hwords 0 _ hfirst rfl).2 ?_, rfl,
    (hwords 2 _ hlast rfl).1 ?_, rfl⟩
  · intro d hd hdeclares _
    have hd : d ∈ Cst.wordAssignmentWord.fileSites := hd
    rw [hsites] at hd
    -- Of the three sites only the second declares anything.
    rcases List.mem_cons.1 hd with rfl | hd
    · exact hdeclares.elim
    · rcases List.mem_cons.1 hd with rfl | hd
      · exact .inl ⟨by decide, by decide⟩
      · obtain rfl := List.mem_singleton.1 hd
        exact hdeclares.elim
  · refine ⟨_, List.mem_of_getElem? htarget, ?_, ⟨[], _, [], rfl, rfl, nofun⟩,
      .inl ⟨by decide, by decide⟩⟩
    show Cst.text _ _ = Cst.text _ _
    decide +kernel

/-- The source `x = 1 if x`. -/
def Source.guardBehind : List UInt8 := "x = 1 if x\n".toUTF8.toList

def Cst.guardBehind : Cst :=
  .mk { type := "program", endByte := 11 }
    [.mk { type := "if_modifier", endByte := 10 }
      [.mk { type := "assignment", field := "body", endByte := 5 }
        [.mk { type := "identifier", field := "left", endByte := 1 } [],
         .mk { type := "=", named := false, startByte := 2, endByte := 3 } [],
         .mk { type := "integer", field := "right", startByte := 4, endByte := 5 } []],
       .mk { type := "if", named := false, startByte := 6, endByte := 8 } [],
       .mk { type := "identifier", field := "condition", startByte := 9, endByte := 10 } []]]

/-- The last `x` is a call, though the assignment to `x` stands before it in the same
program, outside of any block. -/
theorem Source.condition_overtakes_body :
    (Grammar.constant .guardBehind Source.guardBehind).hasError = false ∧
    Cst.guardBehind.Ordered ∧
    ∃ tree s t n, Source.parse (.constant .guardBehind) "a.rb" Source.guardBehind = .ok tree ∧
      Cst.guardBehind.fileSites = [s, t] ∧ s.use = .word ∧ t.use = .target ∧
      s.node.text Source.guardBehind = "x" ∧ t.node.text Source.guardBehind = "x" ∧
      s.scopes = t.scopes ∧ t.node.info.startByte < s.node.info.startByte ∧
      tree.siteNodes[0]? = some n ∧ n.kind = .call ∧ n.kind ≠ .localVariable := by
  refine ⟨rfl, by decide +kernel, _, _, _, _, parse_eq rfl "a.rb", rfl, rfl, rfl, ?_, ?_, rfl,
    by decide, rfl, ?_, ?_⟩
  · decide +kernel
  · decide +kernel
  · decide +kernel
  · decide +kernel

end RubySmells
