import RubySmells.Proofs.ReadingOrder

/-!
# Expressions in the headers of definitions

Some definitions begin with an expression: the owner of a method, the superclass of a
class, the object whose singleton class is opened. The owner of a method is read in
the scope around the method; the other two are read in the scope of the definition
itself.

* **places below a place** — the scopes around a place below a node are those around
  the node, and then those that are opened from the node on
  (`Cst.scopesAround_append`);
* **closed constructs** — where a node opens a fresh scope around everything in it,
  nothing declared outside is visible inside, nor the other way round
  (`Cst.below_of_visibleFrom`, `Cst.below_of_visibleFrom_inside`);
* **owners** — from the owner of a method what is visible at the method is visible,
  and what is declared in it is visible from where the method is
  (`Cst.visibleFrom_owner`, `Cst.visibleFrom_of_owner`).
-/

namespace RubySmells

/-- A scope that is opened at or below a place, by its address in the whole tree. -/
def Scope.below (a : Address) (t : Scope) : Scope := ⟨a ++ t.address, t.inherits⟩

namespace Cst

/-- Whether the second of two places is somewhere below the first. -/
def Below (a p : Address) : Prop := ∃ i r, p = a ++ i :: r

/-- What the node at a place is taken for. -/
def standingOf : Cst → Standing → Address → Standing
  | _, standing, [] => standing
  | c, standing, i :: a =>
    match c.children[i]? with
    | some d => d.standingOf (c.standingAt i standing) a
    | none => .construct

/-- The field with the expression in the header of a definition. -/
def headerField (c : Cst) : Option String :=
  match c.type with
  | "method" => some "object"
  | "singleton_method" => some "object"
  | "class" => some "superclass"
  | "singleton_class" => some "value"
  | _ => none

theorem standingOf_cons {c d : Cst} {i : Nat} (hd : c.children[i]? = some d)
    (standing : Standing) (a : Address) :
    c.standingOf standing (i :: a) = d.standingOf (c.standingAt i standing) a := by
  rw [standingOf, hd]

/-- The owner stands in the header of a method, the other expressions in those of
constructs that are closed. -/
theorem role_of_headerField {c : Cst} {field : String} (h : c.headerField = some field) :
    field = "object" ∧ c.role = .methodDefinition ∨
      field ≠ "object" ∧ (c.role = .classDefinition ∨ c.role = .gate) := by
  rw [headerField] at h
  rw [role]
  split at h
  · rename_i htype
    rw [htype]
    exact .inl ⟨(Option.some.inj h).symm, rfl⟩
  · rename_i htype
    rw [htype]
    exact .inl ⟨(Option.some.inj h).symm, rfl⟩
  · rename_i htype
    obtain rfl := Option.some.inj h
    rw [htype]
    exact .inr ⟨by decide, .inl rfl⟩
  · rename_i htype
    obtain rfl := Option.some.inj h
    rw [htype]
    exact .inr ⟨by decide, .inr rfl⟩
  · exact absurd h (by simp)

/-! ## Scopes around a place below a place -/

theorem scopesAround_append {root c : Cst} {a : Address} (hc : root.at? a = some c)
    (standing : Standing) (b : Address) :
    root.scopesAround standing (a ++ b) = root.scopesAround standing a ++
      (c.scopesAround (root.standingOf standing a) b).map (.below a) := by
  induction a generalizing root standing with
  | nil =>
      obtain rfl := Option.some.inj hc
      rw [List.nil_append, scopesAround, List.nil_append, standingOf]
      exact (List.map_id'' (fun _ => rfl) _).symm
  | cons i a ih =>
      obtain ⟨d, hd, hc⟩ := exists_child_of_at? hc
      rw [List.cons_append, scopesAround_cons hd, scopesAround_cons hd, standingOf_cons hd,
        ih hc, List.map_append, List.map_map, List.append_assoc]
      rfl

/-- A scope around a place is opened by a node above it. -/
theorem below_of_mem_scopesAround {c : Cst} {standing : Standing} {p : Address} {t : Scope}
    (h : t ∈ c.scopesAround standing p) : Below t.address p := by
  induction p generalizing c standing t with
  | nil => exact absurd h (by simp [scopesAround])
  | cons i p ih =>
      rw [scopesAround] at h
      rcases List.mem_append.1 h with h | h
      · obtain ⟨inherits, -, rfl⟩ := List.mem_map.1 h
        exact ⟨i, p, rfl⟩
      · cases hd : c.children[i]? with
        | none =>
            rw [hd] at h
            exact absurd h List.not_mem_nil
        | some d =>
            rw [hd] at h
            obtain ⟨t, ht, rfl⟩ := List.mem_map.1 h
            obtain ⟨j, r, rfl⟩ := ih ht
            exact ⟨j, r, rfl⟩

theorem Below.of_isPrefix {a b p : Address} (hab : a <+: b) (h : Below b p) : Below a p := by
  obtain ⟨r, rfl⟩ := hab
  obtain ⟨j, q, rfl⟩ := h
  cases r with
  | nil => exact ⟨j, q, by rw [List.append_nil]⟩
  | cons i r => exact ⟨i, r ++ j :: q, by rw [List.append_assoc, List.cons_append]⟩

/-! ## Closed constructs -/

/-- Whether the node at a place opens a fresh scope around everything in it. -/
def ClosedAt (root : Cst) (a : Address) : Prop :=
  ∃ c, root.at? a = some c ∧ ∀ i, c.opensAround i (root.standingOf .file a) = some false

section Closed

variable {root : Cst} {a p q : Address}

/-- The scope that a closed construct opens stands between those around it and those
opened in it. -/
theorem scopesOf_of_closed (h : root.ClosedAt a) (hp : Below a p) :
    ∃ inner, root.scopesOf p = root.scopesOf a ++ ⟨a, false⟩ :: inner ∧
      ∀ t ∈ inner, a <+: t.address := by
  obtain ⟨c, hc, hopens⟩ := h
  obtain ⟨i, r, rfl⟩ := hp
  obtain ⟨inner, hinner⟩ : ∃ inner, c.scopesAround (root.standingOf .file a) (i :: r) =
      ⟨[], false⟩ :: inner := by
    rw [scopesAround, hopens i]
    exact ⟨_, rfl⟩
  refine ⟨inner.map (.below a), ?_, ?_⟩
  · rw [scopesOf, scopesAround_append hc, hinner, List.map_cons, Scope.below, List.append_nil]
    rfl
  · intro t ht
    obtain ⟨t, -, rfl⟩ := List.mem_map.1 ht
    exact List.prefix_append a t.address

/-- What is visible inside of a closed construct is declared inside. -/
theorem below_of_visibleFrom (h : root.ClosedAt a) (hp : Below a p)
    (hvisible : root.VisibleFrom q p) : Below a q := by
  obtain ⟨inner, hscopes, hinner⟩ := scopesOf_of_closed h hp
  obtain ⟨outer, scope, within, hsplit, hlast, hinherits⟩ := hvisible
  -- The scope it is declared in is no further out than the one that the construct opens.
  have hscope : a <+: scope.address := by
    rw [hscopes] at hsplit
    rcases List.append_eq_append_iff.1 hsplit with ⟨z, -, hz⟩ | ⟨z, -, hz⟩
    · have hmem : scope ∈ (⟨a, false⟩ : Scope) :: inner := by
        rw [hz]
        exact List.mem_append_right _ List.mem_cons_self
      rcases List.mem_cons.1 hmem with rfl | hmem
      · exact List.prefix_refl a
      · exact hinner scope hmem
    · cases z with
      | nil =>
          obtain ⟨rfl, -⟩ := List.cons.inj hz
          exact List.prefix_refl a
      | cons t z =>
          obtain ⟨-, hwithin⟩ := List.cons.inj hz
          have hclosed := hinherits ⟨a, false⟩ (by simp [hwithin])
          exact absurd hclosed (by simp)
  exact (below_of_mem_scopesAround (List.mem_of_getLast? hlast)).of_isPrefix hscope

/-- What is declared inside of a closed construct is visible only inside. -/
theorem below_of_visibleFrom_inside (h : root.ClosedAt a) (hq : Below a q)
    (hvisible : root.VisibleFrom q p) : Below a p := by
  obtain ⟨inner, hscopes, hinner⟩ := scopesOf_of_closed h hq
  obtain ⟨outer, scope, within, hsplit, hlast, -⟩ := hvisible
  have hscope : a <+: scope.address := by
    have hmem : scope ∈ (⟨a, false⟩ : Scope) :: inner := by
      rw [hscopes, List.getLast?_append] at hlast
      cases hinner : ((⟨a, false⟩ : Scope) :: inner).getLast? with
      | none => exact absurd (List.getLast?_eq_none_iff.1 hinner) (List.cons_ne_nil _ _)
      | some t =>
          rw [hinner] at hlast
          obtain rfl := Option.some.inj hlast
          exact List.mem_of_getLast? hinner
    rcases List.mem_cons.1 hmem with rfl | hmem
    · exact List.prefix_refl a
    · exact hinner scope hmem
  have hmem : scope ∈ root.scopesOf p := by
    rw [hsplit]
    exact List.mem_append_right _ List.mem_cons_self
  exact (below_of_mem_scopesAround hmem).of_isPrefix hscope

theorem closedAt_of_headerField {c : Cst} {field : String} (hc : root.at? a = some c)
    (hstanding : root.standingOf .file a = .construct) (hfield : c.headerField = some field)
    (hobject : field ≠ "object") : root.ClosedAt a := by
  refine ⟨c, hc, fun i => ?_⟩
  rw [hstanding, opensAround]
  rcases role_of_headerField hfield with ⟨heq, -⟩ | ⟨-, hr | hr⟩
  · exact absurd heq hobject
  · rw [hr]
  · rw [hr]

end Closed

/-! ## Owners -/

section Owner

variable {root c : Cst} {a b d p : Address} {i : Nat}

/-- Around a place that a construct opens no scope around stand the scopes around the
construct, and then those that are opened from the place on. -/
theorem scopesOf_of_open (hc : root.at? a = some c)
    (hopens : c.opensAround i (root.standingOf .file a) = none) :
    ∃ inner, root.scopesOf (a ++ i :: b) = root.scopesOf a ++ inner ∧
      ∀ t ∈ inner, Below a t.address := by
  refine ⟨_, scopesAround_append hc .file (i :: b), ?_⟩
  intro t ht
  obtain ⟨u, hu, rfl⟩ := List.mem_map.1 ht
  cases hd : c.children[i]? with
  | none =>
      rw [scopesAround, hopens, hd] at hu
      exact absurd hu List.not_mem_nil
  | some d =>
      rw [scopesAround_cons hd, hopens] at hu
      obtain ⟨v, -, rfl⟩ := List.mem_map.1 hu
      exact ⟨i, v.address, rfl⟩

theorem visibleFrom_owner (hc : root.at? a = some c)
    (hopens : c.opensAround i (root.standingOf .file a) = none)
    (hinherits : ∀ t ∈ root.scopesOf (a ++ i :: b), Below a t.address → t.inherits = true)
    (hvisible : root.VisibleFrom d a) : root.VisibleFrom d (a ++ i :: b) := by
  obtain ⟨inner, hscopes, hbelow⟩ := scopesOf_of_open (b := b) hc hopens
  obtain ⟨outer, scope, within, hsplit, hlast, hwithin⟩ := hvisible
  refine ⟨outer, scope, within ++ inner, ?_, hlast, ?_⟩
  · rw [hscopes, hsplit, List.append_assoc, List.cons_append]
  · intro t ht
    rcases List.mem_append.1 ht with ht | ht
    · exact hwithin t ht
    · refine hinherits t ?_ (hbelow t ht)
      rw [hscopes]
      exact List.mem_append_right _ ht

/-- What an owner declares outside of any block in it stands where the method stands. -/
theorem visibleFrom_of_owner (hc : root.at? a = some c)
    (hopens : c.opensAround i (root.standingOf .file a) = none)
    (hnone : ∀ t ∈ root.scopesOf (a ++ i :: b), ¬ Below a t.address)
    (hvisible : root.VisibleFrom a p) : root.VisibleFrom (a ++ i :: b) p := by
  obtain ⟨inner, hscopes, hbelow⟩ := scopesOf_of_open (b := b) hc hopens
  have hinner : inner = [] := by
    refine List.eq_nil_iff_forall_not_mem.2 fun t ht => ?_
    refine hnone t ?_ (hbelow t ht)
    rw [hscopes]
    exact List.mem_append_right _ ht
  rw [VisibleFrom, hscopes, hinner, List.append_nil]
  exact hvisible

theorem opensAround_owner (hfield : c.headerField = some "object")
    (hi : c.children.findIdx? (fills "object") = some i) :
    c.opensAround i .construct = none := by
  rw [opensAround]
  rcases role_of_headerField hfield with ⟨-, hr⟩ | ⟨hne, -⟩
  · rw [hr]
    exact if_pos hi
  · exact absurd rfl hne

end Owner

end Cst

/-- **Headers of definitions.** A bare word in the owner of a method becomes a
variable if its text is declared before it where that is visible at the method, and
what the owner declares, outside of any block in it, is known afterwards wherever what
stands beside the method is. A bare word in a superclass, or in the object whose
singleton class is opened, becomes a variable only if its text is declared inside of
the same definition; what is declared there is known nowhere outside. -/
theorem Source.header_resolved (grammar : Grammar) (path : String) (source : List UInt8)
    (h : (grammar source).hasError = false) :
    let root := (grammar source).root
    ∃ tree, Source.parse grammar path source = .ok tree ∧
      ∀ (a : Address) (c : Cst) (field : String) (i : Nat), root.at? a = some c →
        root.standingOf .file a = .construct → c.headerField = some field →
        c.children.findIdx? (Cst.fills field) = some i →
        ∀ (k : Nat) (s : Site), root.fileSites[k]? = some s → s.use = .word →
          let name := s.node.text source
          (field = "object" →
            (∀ b, s.address = a ++ i :: b →
              (∀ t ∈ root.scopesOf s.address, Cst.Below a t.address → t.inherits = true) →
              (∃ d ∈ root.fileSites.take k, d.Declares source name ∧
                root.VisibleFrom d.address a) →
              tree.siteNodes[k]? = some (s.node.resolved source true)) ∧
            ((∃ d ∈ root.fileSites.take k, d.Declares source name ∧
                (∃ b, d.address = a ++ i :: b) ∧
                ∀ t ∈ root.scopesOf d.address, ¬ Cst.Below a t.address) →
              root.VisibleFrom a s.address →
              tree.siteNodes[k]? = some (s.node.resolved source true))) ∧
          (field ≠ "object" →
            (∀ b, s.address = a ++ i :: b →
              ∃ isLocal, tree.siteNodes[k]? = some (s.node.resolved source isLocal) ∧
                (isLocal = true ↔ ∃ d ∈ root.fileSites.take k, Cst.Below a d.address ∧
                  d.Declares source name ∧ root.VisibleFrom d.address s.address)) ∧
            ∀ d ∈ root.fileSites, (∃ b, d.address = a ++ i :: b) → ¬ Cst.Below a s.address →
              ¬ root.VisibleFrom d.address s.address) := by
  intro root
  refine ⟨_, parse_eq h path, ?_⟩
  intro a c field i hc hstanding hfield hi k s hs huse name
  obtain ⟨isLocal, hnode, hlocal⟩ := Cst.exists_node_of_word source hs huse
  constructor
  · rintro rfl
    have hopens : c.opensAround i (root.standingOf .file a) = none := by
      rw [hstanding]
      exact Cst.opensAround_owner hfield hi
    constructor
    · intro b hb hinherits hdeclared
      obtain ⟨d, hd, hdeclares, hvisible⟩ := hdeclared
      rw [hb] at hinherits
      have hseen := Cst.visibleFrom_owner hc hopens hinherits hvisible
      rw [← hb] at hseen
      obtain rfl := hlocal.2 ⟨d, hd, hdeclares, hseen⟩
      exact hnode
    · rintro ⟨d, hd, hdeclares, ⟨b, hb⟩, hnone⟩ hvisible
      rw [hb] at hnone
      have hseen := Cst.visibleFrom_of_owner hc hopens hnone hvisible
      rw [← hb] at hseen
      obtain rfl := hlocal.2 ⟨d, hd, hdeclares, hseen⟩
      exact hnode
  · intro hobject
    have hclosed := Cst.closedAt_of_headerField hc hstanding hfield hobject
    constructor
    · intro b hb
      refine ⟨isLocal, hnode, hlocal.trans ⟨?_, ?_⟩⟩
      · rintro ⟨d, hd, hdeclares, hvisible⟩
        have hbelow := Cst.below_of_visibleFrom hclosed ⟨i, b, hb⟩ hvisible
        exact ⟨d, hd, hbelow, hdeclares, hvisible⟩
      · rintro ⟨d, hd, -, hdeclares, hvisible⟩
        exact ⟨d, hd, hdeclares, hvisible⟩
    · rintro d - ⟨b, hb⟩ houtside hvisible
      exact houtside (Cst.below_of_visibleFrom_inside hclosed ⟨i, b, hb⟩ hvisible)

/-- The source `obj = 1`, `def obj.m`, `end`, `class << obj`, `end` on five lines. -/
def Source.ownerAndObject : List UInt8 :=
  "obj = 1\ndef obj.m\nend\nclass << obj\nend\n".toUTF8.toList

def Cst.ownerAndObject : Cst :=
  .mk { type := "program", endByte := 39 }
    [.mk { type := "assignment", endByte := 7 }
      [.mk { type := "identifier", field := "left", endByte := 3 } [],
       .mk { type := "=", named := false, startByte := 4, endByte := 5 } [],
       .mk { type := "integer", field := "right", startByte := 6, endByte := 7 } []],
     .mk { type := "singleton_method", startByte := 8, endByte := 21, row := 1 }
      [.mk { type := "def", named := false, startByte := 8, endByte := 11, row := 1 } [],
       .mk { type := "identifier", field := "object", startByte := 12, endByte := 15,
             row := 1 } [],
       .mk { type := ".", named := false, startByte := 15, endByte := 16, row := 1 } [],
       .mk { type := "identifier", field := "name", startByte := 16, endByte := 17,
             row := 1 } [],
       .mk { type := "end", startByte := 18, endByte := 21, row := 2 } []],
     .mk { type := "singleton_class", startByte := 22, endByte := 38, row := 3 }
      [.mk { type := "class", named := false, startByte := 22, endByte := 27, row := 3 } [],
       .mk { type := "<<", named := false, startByte := 28, endByte := 30, row := 3 } [],
       .mk { type := "identifier", field := "value", startByte := 31, endByte := 34,
             row := 3 } [],
       .mk { type := "end", named := false, startByte := 35, endByte := 38, row := 4 } []]]

/-- The owner of the method becomes a variable, the object of the singleton class a
call. -/
theorem Source.header_resolved_ownerAndObject :
    (Grammar.constant .ownerAndObject Source.ownerAndObject).hasError = false ∧
    ∃ tree n m, Source.parse (.constant .ownerAndObject) "a.rb" Source.ownerAndObject =
        .ok tree ∧
      tree.siteNodes[1]? = some n ∧ n.kind = .localVariable ∧
      tree.siteNodes[3]? = some m ∧ m.kind = .call := by
  obtain ⟨tree, hparse, hheaders⟩ := header_resolved (.constant .ownerAndObject) "a.rb"
    Source.ownerAndObject rfl
  have hfirst : Cst.ownerAndObject.fileSites[0]? = some _ := rfl
  have howner := (hheaders [1] _ "object" 1 rfl rfl rfl rfl 1 _ rfl rfl).1 rfl
  have hvalue := (hheaders [2] _ "value" 2 rfl rfl rfl rfl 3 _ rfl rfl).2 (by decide)
  obtain ⟨isLocal, hcall, hlocal⟩ := hvalue.1 [] rfl
  refine ⟨rfl, tree, _, _, hparse, howner.1 [] rfl ?_ ?_, rfl, hcall, ?_⟩
  · intro t ht hbelow
    -- Around the owner there is no scope but that of the file.
    obtain rfl := List.mem_singleton.1 (show t ∈ [⟨[], false⟩] from ht)
    obtain ⟨j, r, h⟩ := hbelow
    exact absurd h (by simp)
  · refine ⟨_, List.mem_of_getElem? (i := 0) hfirst, ?_, ⟨[], _, [], rfl, rfl, ?_⟩⟩
    · show Cst.text _ _ = Cst.text _ _
      decide +kernel
    · exact fun _ h => absurd h List.not_mem_nil
  · cases isLocal with
    | false => rfl
    | true =>
        obtain ⟨d, hd, ⟨j, r, hbelow⟩, -⟩ := hlocal.1 rfl
        -- The only declaration before it is at another child of the file.
        have haddress : d.address ∈ [[0, 0], [1, 1], [1]] := List.mem_map_of_mem hd
        rw [hbelow] at haddress
        exact absurd haddress (by simp)

/-- The source `obj = 1`, `class << obj`, `end` on three lines. -/
def Source.objectOfSingleton : List UInt8 := "obj = 1\nclass << obj\nend\n".toUTF8.toList

def Cst.objectOfSingleton : Cst :=
  .mk { type := "program", endByte := 25 }
    [.mk { type := "assignment", endByte := 7 }
      [.mk { type := "identifier", field := "left", endByte := 3 } [],
       .mk { type := "=", named := false, startByte := 4, endByte := 5 } [],
       .mk { type := "integer", field := "right", startByte := 6, endByte := 7 } []],
     .mk { type := "singleton_class", startByte := 8, endByte := 24, row := 1 }
      [.mk { type := "class", named := false, startByte := 8, endByte := 13, row := 1 } [],
       .mk { type := "<<", named := false, startByte := 14, endByte := 16, row := 1 } [],
       .mk { type := "identifier", field := "value", startByte := 17, endByte := 20,
             row := 1 } [],
       .mk { type := "end", named := false, startByte := 21, endByte := 24, row := 2 } []]]

/-- The object is a call, though its text is assigned to before the singleton class is
opened, where that is visible. -/
theorem Source.object_of_singleton_unresolved :
    (Grammar.constant .objectOfSingleton Source.objectOfSingleton).hasError = false ∧
    ∃ tree c s t n, Source.parse (.constant .objectOfSingleton) "a.rb"
        Source.objectOfSingleton = .ok tree ∧
      Cst.objectOfSingleton.at? [1] = some c ∧ c.type = "singleton_class" ∧
      c.child? "value" = some s.node ∧
      Cst.objectOfSingleton.fileSites = [t, s] ∧ t.use = .target ∧ s.use = .word ∧
      s.node.text Source.objectOfSingleton = t.node.text Source.objectOfSingleton ∧
      Cst.objectOfSingleton.VisibleFrom t.address [1] ∧
      tree.siteNodes[1]? = some n ∧ n.kind = .call ∧ n.kind ≠ .localVariable := by
  refine ⟨rfl, _, _, _, _, _, parse_eq rfl "a.rb", rfl, rfl, rfl, rfl, rfl, rfl, ?_,
    ⟨[], _, [], rfl, rfl, fun _ h => absurd h List.not_mem_nil⟩, rfl, ?_, ?_⟩
  · decide +kernel
  · decide +kernel
  · decide +kernel

end RubySmells
