import RubySmells.Proofs.Derivation
import RubySmells.Proofs.Sites

/-!
# The first fault of a tree

A source file is malformed if the grammar says so, and then one of the nodes that mark
a fault is reported.

* **order** — going over a tree with a stack comes to its nodes as the recursion does
  (`Cst.visit_eq`). By their addresses: to each of them once, and in the order of the
  addresses, which compare like words in a dictionary (`Cst.mem_addresses`,
  `Cst.pairwise_addresses`, `Cst.map_at?_addresses`);
* **the first fault** — so the node that is found has the least address of all that mark
  a fault (`Cst.exists_address_firstFault`).
-/

namespace RubySmells

/-- One address comes before another, as words do in a dictionary: where they part, it
goes further to the left, or ends. -/
def Address.Before (a b : Address) : Prop := List.Lex (· < ·) a b

namespace Cst

/-! ## Going over a tree -/

theorem preorderAll_append (cs ds : List Cst) :
    preorderAll (cs ++ ds) = preorderAll cs ++ preorderAll ds := by
  rw [preorderAll_eq, preorderAll_eq, preorderAll_eq, List.flatMap_append]

/-- What is on the stack is gone over tree by tree. -/
theorem visit_eq (stack : List Cst) : visit stack = preorderAll stack := by
  -- On the nodes at and below the stack: a node gives way to its children.
  fun_induction visit stack with
  | case1 => rfl
  | case2 c stack ih =>
      obtain ⟨i, cs⟩ := c
      rw [ih, preorderAll_append, children, preorderAll, preorder, List.cons_append]

theorem visit_singleton (c : Cst) : visit [c] = c.preorder := by
  rw [visit_eq, preorderAll, preorderAll, List.append_nil]

/-! ## Addresses -/

mutual

/-- The addresses of the nodes of a tree, a node before what is below it. -/
def addresses : Cst → List Address
  | .mk _ cs => [] :: addressesFrom 0 cs

/-- The addresses of the nodes of several trees that stand side by side, the first of
them at a given position. -/
def addressesFrom : Nat → List Cst → List Address
  | _, [] => []
  | i, c :: cs => c.addresses.map (i :: ·) ++ addressesFrom (i + 1) cs

end

theorem addresses_eq (c : Cst) : c.addresses = [] :: addressesFrom 0 c.children := by
  obtain ⟨i, cs⟩ := c
  rw [addresses, children]

theorem mem_addressesFrom {a : Address} {j : Nat} {cs : List Cst} :
    a ∈ addressesFrom j cs ↔
      ∃ i c, cs[i]? = some c ∧ ∃ b ∈ c.addresses, a = (j + i) :: b := by
  induction cs generalizing j with
  | nil => simp [addressesFrom]
  | cons c cs ih =>
      rw [addressesFrom, List.mem_append, List.mem_map, ih]
      constructor
      · rintro (⟨b, hb, rfl⟩ | ⟨i, d, hd, b, hb, rfl⟩)
        · exact ⟨0, c, rfl, b, hb, rfl⟩
        · exact ⟨i + 1, d, hd, b, hb, by rw [Nat.add_right_comm, Nat.add_assoc]⟩
      · rintro ⟨i, d, hd, b, hb, rfl⟩
        cases i with
        | zero =>
            obtain rfl : c = d := by simpa using hd
            exact .inl ⟨b, hb, rfl⟩
        | succ i =>
            refine .inr ⟨i, d, by simpa using hd, b, hb, ?_⟩
            rw [Nat.add_right_comm, Nat.add_assoc]

/-- The addresses are those at which there is a node. -/
theorem mem_addresses {c : Cst} {a : Address} :
    a ∈ c.addresses ↔ ∃ d, c.at? a = some d := by
  induction a generalizing c with
  | nil =>
      rw [addresses_eq, at?]
      exact ⟨fun _ => ⟨c, rfl⟩, fun _ => List.mem_cons_self⟩
  | cons i a ih =>
      rw [addresses_eq, List.mem_cons, mem_addressesFrom]
      constructor
      · rintro (h | ⟨j, d, hd, b, hb, h⟩)
        · exact absurd h (by simp)
        · obtain ⟨rfl, rfl⟩ : i = j ∧ a = b := by simpa using h
          obtain ⟨e, he⟩ := ih.1 hb
          exact ⟨e, by rw [at?_cons hd, he]⟩
      · rintro ⟨e, he⟩
        obtain ⟨d, hd, he⟩ := exists_child_of_at? he
        exact .inr ⟨i, d, hd, a, ih.2 ⟨e, he⟩, by rw [Nat.zero_add]⟩

/-- The addresses are listed in increasing order, so none of them twice. -/
theorem pairwise_addresses (c : Cst) : c.addresses.Pairwise Address.Before := by
  induction c using Cst.induction with
  | step c ih =>
      have hbelow : ∀ (cs : List Cst) (j : Nat), (∀ d ∈ cs, d ∈ c.children) →
          (addressesFrom j cs).Pairwise Address.Before := by
        intro cs
        induction cs with
        | nil => exact fun j _ => .nil
        | cons d cs ihcs =>
            intro j hcs
            have hfirst := ih d (hcs d List.mem_cons_self)
            have hrest := ihcs (j + 1) fun e he => hcs e (List.mem_cons_of_mem _ he)
            refine List.pairwise_append.2 ⟨List.pairwise_map.2 (hfirst.imp ?_), hrest, ?_⟩
            · intro a b hab
              exact List.Lex.cons hab
            · -- What stands further to the right has a greater first number.
              intro a ha b hb
              obtain ⟨a, -, rfl⟩ := List.mem_map.1 ha
              obtain ⟨i, e, -, b, -, rfl⟩ := mem_addressesFrom.1 hb
              exact List.Lex.rel (by omega)
      rw [addresses_eq, List.pairwise_cons]
      refine ⟨fun a ha => ?_, hbelow c.children 0 fun d hd => hd⟩
      obtain ⟨i, d, -, b, -, rfl⟩ := mem_addressesFrom.1 ha
      exact List.Lex.nil

/-- The nodes at the addresses, one after the other, are those of the recursion. -/
theorem map_at?_addresses (c : Cst) : c.addresses.map c.at? = c.preorder.map some := by
  induction c using Cst.induction with
  | step c ih =>
      have hbelow : ∀ (before cs : List Cst), c.children = before ++ cs →
          (addressesFrom before.length cs).map c.at? = (preorderAll cs).map some := by
        intro before cs
        induction cs generalizing before with
        | nil => exact fun _ => rfl
        | cons d cs ihcs =>
            intro hsplit
            have hd : c.children[before.length]? = some d := by
              rw [hsplit, List.getElem?_append_right (Nat.le_refl _), Nat.sub_self]
              rfl
            have hrest := ihcs (before ++ [d]) (by rw [hsplit, List.append_assoc]; rfl)
            rw [List.length_append, List.length_singleton] at hrest
            have hfirst : (d.addresses.map (before.length :: ·)).map c.at? =
                d.preorder.map some := by
              rw [List.map_map, ← ih d (List.mem_of_getElem? hd)]
              exact List.map_congr_left fun a _ => at?_cons hd a
            rw [addressesFrom, preorderAll, List.map_append, List.map_append, hfirst, hrest]
      rw [addresses_eq, preorder_eq, ← preorderAll_eq, List.map_cons, List.map_cons, at?,
        ← hbelow [] c.children rfl]
      rfl

/-! ## The first fault -/

/-- The node at an address marks a fault. -/
def FaultAt (root : Cst) (a : Address) : Prop :=
  ∃ c, root.at? a = some c ∧ c.isFault = true

/-- No fault is marked before an address: one is marked there, and all others come after
it; or none is marked at all, and it is the address of the root. -/
def FaultFirstAt (root : Cst) (a : Address) : Prop :=
  root.FaultAt a ∧ (∀ b, root.FaultAt b → a = b ∨ a.Before b) ∨ a = [] ∧ ∀ b, ¬ root.FaultAt b

theorem mem_preorder_of_at? {root c : Cst} {a : Address} (h : root.at? a = some c) :
    c ∈ root.preorder := by
  have ha : some c ∈ root.addresses.map root.at? :=
    List.mem_map.2 ⟨a, mem_addresses.2 ⟨c, h⟩, h⟩
  rw [map_at?_addresses] at ha
  obtain ⟨d, hd, heq⟩ := List.mem_map.1 ha
  exact Option.some.inj heq ▸ hd

/-- The first fault of a tree stands at the address that comes first. -/
theorem exists_address_firstFault (root : Cst) :
    ∃ a, root.at? a = some root.firstFault ∧ root.FaultFirstAt a := by
  rw [firstFault, visit_singleton]
  cases hfind : root.preorder.find? isFault with
  | none =>
      refine ⟨[], rfl, .inr ⟨rfl, ?_⟩⟩
      rintro b ⟨c, hc, hfault⟩
      exact List.find?_eq_none.1 hfind c (mem_preorder_of_at? hc) hfault
  | some c =>
      obtain ⟨hfault, before, after, hsplit, hbefore⟩ := List.find?_eq_some_iff_append.1 hfind
      -- The addresses fall into those before the node, its own, and those after it.
      have haddresses := root.map_at?_addresses
      rw [hsplit, List.map_append, List.map_cons] at haddresses
      obtain ⟨as, bs, hroot, has, hbs⟩ := List.map_eq_append_iff.1 haddresses
      obtain ⟨a, cs, rfl, ha, -⟩ := List.map_eq_cons_iff.1 hbs
      have hpairwise := root.pairwise_addresses
      rw [hroot, List.pairwise_append] at hpairwise
      refine ⟨a, ha, .inl ⟨⟨c, ha, hfault⟩, ?_⟩⟩
      rintro b ⟨d, hd, hdfault⟩
      have hb : b ∈ as ++ a :: cs := hroot ▸ mem_addresses.2 ⟨d, hd⟩
      rcases List.mem_append.1 hb with hb | hb
      · have hmem : some d ∈ before.map some := has ▸ List.mem_map.2 ⟨b, hb, hd⟩
        obtain ⟨e, he, heq⟩ := List.mem_map.1 hmem
        have hnone := hbefore e he
        rw [Option.some.inj heq, hdfault] at hnone
        exact absurd hnone (by simp)
      · rcases List.mem_cons.1 hb with rfl | hb
        · exact .inl rfl
        · exact .inr ((List.pairwise_cons.1 hpairwise.2.1).1 b hb)

end Cst

/-- A source file with a fault is reported at the first one. -/
theorem Source.parse_of_hasError {grammar : Grammar} {source : List UInt8}
    (h : (grammar source).hasError = true) (path : String) :
    Source.parse grammar path source =
      .error ⟨path, Source.malformed source (grammar source).root.firstFault⟩ := by
  simp only [Source.parse, Parsed.fault?, if_pos h]

/-- **Malformed sources.** The nodes of a tree are gone over as the recursion does, each of
them once: by their addresses, in the order of these. A source file is malformed exactly
if the grammar has found a fault, whatever its nodes mark; then the place reported is where
the node starts that marks a fault and comes first, counted from one, or where the root
does if none marks one. -/
theorem Source.first_fault_reported (grammar : Grammar) (path : String) (source : List UInt8) :
    let root := (grammar source).root
    (Cst.visit [root] = root.preorder ∧
      (Cst.visit [root]).map some = root.addresses.map root.at? ∧
      root.addresses.Pairwise Address.Before ∧
      ∀ a, a ∈ root.addresses ↔ ∃ c, root.at? a = some c) ∧
    ∃ a c, root.at? a = some c ∧ root.FaultFirstAt a ∧
      if (grammar source).hasError then
        ∃ detail, Source.parse grammar path source =
          .error ⟨path, .malformed (c.info.row + 1) (c.info.column + 1) detail⟩
      else ∃ tree, Source.parse grammar path source = .ok tree := by
  intro root
  refine ⟨⟨root.visit_singleton, ?_, root.pairwise_addresses, fun _ => Cst.mem_addresses⟩, ?_⟩
  · rw [root.visit_singleton, root.map_at?_addresses]
  obtain ⟨a, ha, hfirst⟩ := root.exists_address_firstFault
  refine ⟨a, root.firstFault, ha, hfirst, ?_⟩
  split
  · rename_i herror
    exact ⟨_, Source.parse_of_hasError herror path⟩
  · rename_i hok
    exact ⟨_, Source.parse_eq (by simpa using hok) path⟩

end RubySmells
