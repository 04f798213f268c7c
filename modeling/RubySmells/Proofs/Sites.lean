import RubySmells.Proofs.Places
import RubySmells.Proofs.Simplification

/-!
# Where names are used and declared

A *site* is a place of a concrete syntax tree at which simplification comes upon
a name: a bare word that stands for a value, a bare word that is assigned to,
or a parameter list. `Cst.sites` lists the sites of a construct in the order in
which they are come upon, and with each of them the scopes it stands in.

Which scopes a place stands in is a matter of the way to it from the root
(`Cst.scopesAround`, `Cst.scopesOf`), and so is from where a declaration can be
seen (`Cst.VisibleFrom`). The sites of a source file agree with both:

* each tells the node at its address and the scopes around it
  (`Cst.mem_fileSites`);
* what is declared at one is visible from another exactly if the scopes of the
  first are the outer ones of the second, and all further ones know the locals
  around them (`Cst.visibleFrom_iff`).
-/

namespace RubySmells

/-! ## Scopes on the way to a place -/

/-- A scope, by the address of the node that opens it. -/
structure Scope where
  address : Address
  /-- Whether it knows the locals around it. -/
  inherits : Bool
  deriving DecidableEq

def Scope.under (i : Nat) (t : Scope) : Scope := ⟨i :: t.address, t.inherits⟩

/-- What a node is taken for on the way to a place below it. -/
inductive Standing
  /-- A whole source file. -/
  | file
  /-- A construct in its role. -/
  | construct
  /-- A target that is taken apart: whatever its role, it opens no scope. -/
  | target

namespace Cst

/-- The node at an address. All children count, keywords and brackets too. -/
def at? : Cst → Address → Option Cst
  | c, [] => some c
  | c, i :: a =>
    match c.children[i]? with
    | some d => d.at? a
    | none => none

/-- Whether a node opens a scope around one of its children, and if so, whether
that scope knows the locals around it. The owner of a method stands outside of
the method. -/
def opensAround (c : Cst) (i : Nat) : Standing → Option Bool
  | .file => some false
  | .target => none
  | .construct =>
    match c.role with
    | .classDefinition => some false
    | .moduleDefinition => some false
    | .gate => some false
    | .methodDefinition =>
      if c.children.findIdx? (fills "object") = some i then none else some false
    | .block => some true
    | _ => none

/-- What a child is taken for: the pattern of a loop is taken apart. -/
def standingAt (c : Cst) (i : Nat) : Standing → Standing
  | .construct =>
    if c.role = .loop ∧ c.children.findIdx? (fills "pattern") = some i then .target
    else .construct
  | _ => .construct

/-- The scopes that a node and what is below it open around a place, the outermost
first. -/
def scopesAround : Cst → Standing → Address → List Scope
  | _, _, [] => []
  | c, standing, i :: a =>
    (c.opensAround i standing).toList.map (Scope.mk []) ++
      match c.children[i]? with
      | some d => (d.scopesAround (c.standingAt i standing) a).map (.under i)
      | none => []

/-- The scopes around a place of a source file. -/
def scopesOf (root : Cst) (a : Address) : List Scope := root.scopesAround .file a

/-- Whether what is declared at a place can be seen from another: the innermost
scope around the declaration is around the other place as well, and all scopes
between that one and the other place know the locals around them. -/
def VisibleFrom (root : Cst) (declared a : Address) : Prop :=
  ∃ outer scope inner, root.scopesOf a = outer ++ scope :: inner ∧
    (root.scopesOf declared).getLast? = some scope ∧ ∀ t ∈ inner, t.inherits = true

variable {c d : Cst} {i : Nat}

theorem at?_cons (hd : c.children[i]? = some d) (a : Address) :
    c.at? (i :: a) = d.at? a := by
  rw [at?, hd]

theorem exists_child_of_at? {e : Cst} (h : c.at? (i :: a) = some e) :
    ∃ d, c.children[i]? = some d ∧ d.at? a = some e := by
  cases hd : c.children[i]? with
  | none =>
      rw [at?, hd] at h
      exact absurd h (by simp)
  | some d =>
      rw [at?_cons hd] at h
      exact ⟨d, rfl, h⟩

theorem scopesAround_cons (hd : c.children[i]? = some d) (standing : Standing) (a : Address) :
    c.scopesAround standing (i :: a) =
      (c.opensAround i standing).toList.map (Scope.mk []) ++
        (d.scopesAround (c.standingAt i standing) a).map (.under i) := by
  rw [scopesAround, hd]

/-- The scopes outside of a scope are those around the node that opens it. -/
theorem scopesAround_of_append {standing : Standing} {a : Address} {outer inner : List Scope}
    {t : Scope} (h : c.scopesAround standing a = outer ++ t :: inner) :
    outer = c.scopesAround standing t.address := by
  induction a generalizing c standing outer t inner with
  | nil => exact absurd h (by simp [scopesAround])
  | cons i a ih =>
      rw [scopesAround] at h
      -- The scope is opened further down, or by the node itself.
      have hbelow : ∀ outer', (match c.children[i]? with
            | some d => (d.scopesAround (c.standingAt i standing) a).map (.under i)
            | none => []) = outer' ++ t :: inner →
          (c.opensAround i standing).toList.map (Scope.mk []) ++ outer' =
            c.scopesAround standing t.address := by
        intro outer' h
        cases hd : c.children[i]? with
        | none =>
            rw [hd] at h
            exact absurd h (by simp)
        | some d =>
            rw [hd] at h
            obtain ⟨below, tail, hsplit, rfl, htail⟩ := List.map_eq_append_iff.1 h
            obtain ⟨t', inner', rfl, rfl, -⟩ := List.map_eq_cons_iff.1 htail
            rw [ih hsplit]
            exact (scopesAround_cons hd standing t'.address).symm
      cases hown : c.opensAround i standing with
      | none =>
          rw [hown] at h hbelow
          exact hbelow outer h
      | some inherits =>
          rw [hown] at h hbelow
          cases outer with
          | nil =>
              obtain ⟨rfl, -⟩ := List.cons.inj h
              rfl
          | cons o outer =>
              obtain ⟨rfl, hrest⟩ := List.cons.inj h
              exact hbelow outer hrest

end Cst

/-! ## Sites -/

/-- What a name is come upon as. -/
inductive Use
  /-- A bare word that stands for a value. -/
  | word
  /-- A bare word that is assigned to. -/
  | target
  /-- A list of parameters. -/
  | parameters
  /-- A method without a list of parameters. -/
  | noParameters
  deriving DecidableEq

/-- A place at which a name is come upon. -/
structure Site where
  use : Use
  node : Cst
  address : Address
  /-- The scopes around it, the outermost first. -/
  scopes : List Scope

namespace Site

def here (use : Use) (c : Cst) : Site := ⟨use, c, [], []⟩

def under (i : Nat) (s : Site) : Site :=
  ⟨s.use, s.node, i :: s.address, s.scopes.map (.under i)⟩

/-- A site in a scope opened by the construct it is a site of. -/
def inScope (inherits : Bool) (s : Site) : Site :=
  { s with scopes := ⟨[], inherits⟩ :: s.scopes }

/-- Whether a site stands in the innermost scope of another, with none but scopes
that know the locals around them in between. -/
def Sees (s d : Site) : Prop :=
  ∃ inner, s.scopes = d.scopes ++ inner ∧ ∀ t ∈ inner, t.inherits = true

/-- A site in the scope that is opened, if one is. -/
def inside : Option Bool → Site → Site
  | some inherits, s => s.inScope inherits
  | none, s => s

end Site

/-- What the node in a field is read as. -/
inductive Reading
  | expression
  | target
  | parameters

namespace Cst

mutual

/-- The sites of a construct. -/
def sites : Cst → List Site
  | .mk i cs =>
    let c : Cst := .mk i cs
    match c.role with
    | .comment => []
    | .parameterList => [.here .parameters c]
    | .identifier => [.here .word c]
    | .wrapper => sitesIn [] 0 cs
    | .group => sitesIn [] 0 cs
    | .plain => sitesIn [] 0 cs
    | .gate => (sitesIn [] 0 cs).map (.inScope false)
    | .classDefinition => (sitesIn ["name"] 0 cs).map (.inScope false)
    | .moduleDefinition => (sitesIn ["name"] 0 cs).map (.inScope false)
    | .methodDefinition =>
      sitesAt .expression "object" 0 cs ++
        (if (c.child? "parameters").isNone then [.here .noParameters c] else []) ++
        (sitesAt .parameters "parameters" 0 cs ++
          sitesIn ["object", "name", "parameters"] 0 cs).map (.inScope false)
    | .block =>
      (sitesAt .parameters "parameters" 0 cs ++ sitesIn ["parameters"] 0 cs).map (.inScope true)
    | .conditional => sitesAt .expression "condition" 0 cs ++ sitesIn ["condition"] 0 cs
    | .call => sitesAt .expression "receiver" 0 cs ++ sitesIn ["receiver", "method"] 0 cs
    | .assignment =>
      match c.child? "left" with
      | none => sitesIn [] 0 cs
      | some left =>
        if left.role = .identifier ∨ left.type = "left_assignment_list" then
          sitesAt .target "left" 0 cs ++ sitesIn ["left"] 0 cs
        else sitesIn [] 0 cs
    | .loop => sitesAt .target "pattern" 0 cs ++ sitesIn ["pattern"] 0 cs
    | .exceptionVariable => targetSitesIn 0 cs

/-- The sites of the named nodes among siblings, the first of which stands at a
given position, passing over the first node that fills each of the fields. -/
def sitesIn (fields : List String) : Nat → List Cst → List Site
  | _, [] => []
  | i, c :: cs =>
    match fields.find? (fun f => c.fills f) with
    | some f => sitesIn (fields.erase f) (i + 1) cs
    | none =>
      if c.named then c.sites.map (.under i) ++ sitesIn fields (i + 1) cs
      else sitesIn fields (i + 1) cs

/-- The sites of the first node that fills a field. -/
def sitesAt (reading : Reading) (field : String) : Nat → List Cst → List Site
  | _, [] => []
  | i, c :: cs =>
    let first : List Site := match reading with
      | .expression => c.sites
      | .parameters => [.here .parameters c]
      | .target => if c.role = .identifier then [.here .target c] else c.targetSites
    if c.fills field then first.map (.under i) else sitesAt reading field (i + 1) cs

/-- The sites of the targets inside a node. -/
def targetSites : Cst → List Site
  | .mk _ cs => targetSitesIn 0 cs

/-- The sites of the targets among siblings. -/
def targetSitesIn : Nat → List Cst → List Site
  | _, [] => []
  | i, c :: cs =>
    let first :=
      if !c.named then []
      else if c.role = .identifier then [.here .target c]
      else if c.type = "rest_assignment" ∨ c.type = "destructured_left_assignment" ∨
          c.type = "left_assignment_list" then c.targetSites
      else c.sites
    first.map (.under i) ++ targetSitesIn (i + 1) cs

end

/-- The sites of a source file. -/
def fileSites (root : Cst) : List Site :=
  (sitesIn [] 0 root.children).map (.inScope false)

example : (fileSites (.mk { type := "program" } [
      .mk { type := "assignment" } [.mk { type := "identifier", field := some "left" } []],
      .mk { type := "block" } [.mk { type := "identifier" } []],
      .mk { type := "method" } [.mk { type := "identifier" } []]])).map
        (fun s => (s.use, s.address, s.scopes)) =
    [(.target, [0, 0], [⟨[], false⟩]),
      (.word, [1, 0], [⟨[], false⟩, ⟨[1], true⟩]),
      (.noParameters, [2], [⟨[], false⟩]),
      (.word, [2, 0], [⟨[], false⟩, ⟨[2], false⟩])] := by
  decide

/-! ## Sites by look-up -/

/-- The sites of a node in a field. -/
def readAs (d : Cst) : Reading → List Site
  | .expression => d.sites
  | .parameters => [.here .parameters d]
  | .target => if d.role = .identifier then [.here .target d] else d.targetSites

theorem sitesAt_cons (reading : Reading) (field : String) (i : Nat) (c : Cst) (cs : List Cst) :
    sitesAt reading field i (c :: cs) =
      if c.fills field then (c.readAs reading).map (.under i)
      else sitesAt reading field (i + 1) cs := by
  cases reading <;> rw [sitesAt, readAs]

/-- The sites of a field are those of the first node that fills it. -/
theorem sitesAt_cases (reading : Reading) (field : String) (i : Nat) (cs : List Cst) :
    (cs.find? (fills field) = none ∧ sitesAt reading field i cs = []) ∨
      ∃ j d, cs.findIdx? (fills field) = some j ∧ cs[j]? = some d ∧
        cs.find? (fills field) = some d ∧
        sitesAt reading field i cs = (d.readAs reading).map (.under (i + j)) := by
  induction cs generalizing i with
  | nil => exact .inl ⟨rfl, by rw [sitesAt]⟩
  | cons c cs ih =>
      rw [List.find?_cons, List.findIdx?_cons, sitesAt_cons]
      cases c.fills field with
      | true => exact .inr ⟨0, c, rfl, rfl, rfl, rfl⟩
      | false =>
          rcases ih (i + 1) with ⟨hnone, hsites⟩ | ⟨j, d, hj, hd, hfind, hsites⟩
          · exact .inl ⟨hnone, hsites⟩
          · refine .inr ⟨j + 1, d, by simp [hj], by simpa using hd, hfind, ?_⟩
            rw [Nat.add_right_comm, Nat.add_assoc] at hsites
            exact hsites

theorem mem_sitesAt {reading : Reading} {field : String} {i : Nat} {cs : List Cst} {s : Site}
    (h : s ∈ sitesAt reading field i cs) :
    ∃ j d, cs.findIdx? (fills field) = some j ∧ cs[j]? = some d ∧
      cs.find? (fills field) = some d ∧ ∃ r ∈ d.readAs reading, s = r.under (i + j) := by
  rcases sitesAt_cases reading field i cs with ⟨-, hnil⟩ | ⟨j, d, hj, hd, hfind, hsites⟩
  · rw [hnil] at h
    exact absurd h List.not_mem_nil
  · rw [hsites] at h
    obtain ⟨r, hr, rfl⟩ := List.mem_map.1 h
    exact ⟨j, d, hj, hd, hfind, r, hr, rfl⟩

/-- No node is the first to fill two fields. -/
theorem findIdx?_fills_ne {f g : String} (hfg : f ≠ g) {cs : List Cst} {j : Nat}
    (hf : cs.findIdx? (fills f) = some j) : cs.findIdx? (fills g) ≠ some j := by
  intro hg
  obtain ⟨_, hfill, -⟩ := List.findIdx?_eq_some_iff_getElem.1 hf
  obtain ⟨_, hfill', -⟩ := List.findIdx?_eq_some_iff_getElem.1 hg
  exact hfg (eq_of_fills hfill hfill')

/-- The sites of siblings are those of one of them, and not of the first that
fills a field that is passed over. -/
theorem mem_sitesIn {fields : List String} {i : Nat} {cs : List Cst} {s : Site}
    (h : s ∈ sitesIn fields i cs) :
    ∃ j d, cs[j]? = some d ∧ (∃ r ∈ d.sites, s = r.under (i + j)) ∧
      ∀ f ∈ fields, cs.findIdx? (fills f) ≠ some j := by
  induction cs generalizing i fields with
  | nil =>
      rw [sitesIn] at h
      exact absurd h List.not_mem_nil
  | cons c cs ih =>
      rw [sitesIn] at h
      -- What is found further on stands one position further on.
      have hlater : ∀ {fields' : List String}, s ∈ sitesIn fields' (i + 1) cs →
          (∀ f ∈ fields, c.fills f = true ∨ f ∈ fields') →
          ∃ j d, (c :: cs)[j]? = some d ∧ (∃ r ∈ d.sites, s = r.under (i + j)) ∧
            ∀ f ∈ fields, (c :: cs).findIdx? (fills f) ≠ some j := by
        intro fields' hs hfields
        obtain ⟨j, d, hd, ⟨r, hr, rfl⟩, hother⟩ := ih hs
        refine ⟨j + 1, d, by simpa using hd, ⟨r, hr, ?_⟩, ?_⟩
        · rw [Nat.add_right_comm, Nat.add_assoc]
        · intro f hf
          rw [List.findIdx?_cons]
          rcases hfields f hf with hfill | hmem
          · rw [if_pos hfill]
            simp
          · split
            · simp
            · simpa using hother f hmem
      cases hfind : fields.find? (fun f => c.fills f) with
      | some f =>
          rw [hfind] at h
          refine hlater h fun g hg => ?_
          by_cases hgf : g = f
          · left
            subst hgf
            simpa using List.find?_some hfind
          · exact .inr ((List.mem_erase_of_ne hgf).2 hg)
      | none =>
          rw [hfind] at h
          have hfills : ∀ f ∈ fields, ¬ c.fills f = true := by
            simpa using List.find?_eq_none.1 hfind
          by_cases hnamed : c.named = true
          · simp only [if_pos hnamed] at h
            rcases List.mem_append.1 h with h | h
            · obtain ⟨r, hr, rfl⟩ := List.mem_map.1 h
              refine ⟨0, c, rfl, ⟨r, hr, rfl⟩, fun f hf => ?_⟩
              rw [List.findIdx?_cons, if_neg (hfills f hf)]
              simp
            · exact hlater h fun f hf => .inr hf
          · simp only [if_neg hnamed] at h
            exact hlater h fun f hf => .inr hf

/-- The sites of one sibling among targets. -/
def targetSitesOf (c : Cst) : List Site :=
  if !c.named then []
  else if c.role = .identifier then [.here .target c]
  else if c.type = "rest_assignment" ∨ c.type = "destructured_left_assignment" ∨
      c.type = "left_assignment_list" then c.targetSites
  else c.sites

theorem targetSitesIn_cons (i : Nat) (c : Cst) (cs : List Cst) :
    targetSitesIn i (c :: cs) =
      c.targetSitesOf.map (.under i) ++ targetSitesIn (i + 1) cs := by
  rw [targetSitesIn, targetSitesOf]

theorem mem_targetSitesIn {i : Nat} {cs : List Cst} {s : Site} (h : s ∈ targetSitesIn i cs) :
    ∃ (j : Nat) (d : Cst), cs[j]? = some d ∧ ∃ r ∈ d.targetSitesOf, s = r.under (i + j) := by
  induction cs generalizing i with
  | nil =>
      rw [targetSitesIn] at h
      exact absurd h List.not_mem_nil
  | cons c cs ih =>
      rw [targetSitesIn_cons] at h
      rcases List.mem_append.1 h with h | h
      · obtain ⟨r, hr, rfl⟩ := List.mem_map.1 h
        exact ⟨0, c, rfl, r, hr, rfl⟩
      · obtain ⟨j, d, hd, r, hr, rfl⟩ := ih h
        refine ⟨j + 1, d, by simpa using hd, r, hr, ?_⟩
        rw [Nat.add_right_comm, Nat.add_assoc]

/-! ## Sites stand where they say -/

/-- A site tells the node at its address and the scopes around it. -/
structure Placed (c : Cst) (standing : Standing) (s : Site) : Prop where
  node : c.at? s.address = some s.node
  scopes : s.scopes = c.scopesAround standing s.address

theorem Placed.here (use : Use) (c : Cst) (standing : Standing) :
    Placed c standing (.here use c) :=
  ⟨by rw [Site.here, at?], by rw [Site.here, scopesAround]⟩

/-- A site of a child, in the scope that the node opens around that child. -/
theorem Placed.below {c d : Cst} {i : Nat} {standing : Standing} {r : Site} {own : Option Bool}
    (hd : c.children[i]? = some d) (hown : c.opensAround i standing = own)
    (h : Placed d (c.standingAt i standing) r) :
    Placed c standing (.inside own (r.under i)) := by
  obtain ⟨hnode, hscopes⟩ := h
  constructor
  · cases own <;> exact (at?_cons hd r.address).trans hnode
  · have haround := scopesAround_cons hd standing r.address
    rw [hown, ← hscopes] at haround
    cases own <;> exact haround.symm

/-- A node without a role opens no scope, whatever it is taken for. -/
theorem Placed.of_target {c : Cst} {s : Site} (hr : c.role = .plain) (h : Placed c .target s) :
    Placed c .construct s := by
  have haround : ∀ a, c.scopesAround .target a = c.scopesAround .construct a := by
    intro a
    cases a with
    | nil => rw [scopesAround, scopesAround]
    | cons i a => simp [scopesAround, opensAround, standingAt, hr]
  exact ⟨h.node, h.scopes.trans (haround s.address)⟩

/-- The sites of a node stand where they say, whether the node is taken as a
construct or as a target. -/
structure SitesPlaced (c : Cst) : Prop where
  sites : ∀ s ∈ c.sites, Placed c .construct s
  targets : ∀ s ∈ c.targetSites, Placed c .target s

theorem SitesPlaced.targetSitesOf {c : Cst} (h : SitesPlaced c) {s : Site}
    (hs : s ∈ c.targetSitesOf) : Placed c .construct s := by
  rw [Cst.targetSitesOf] at hs
  split at hs
  · exact absurd hs List.not_mem_nil
  · split at hs
    · obtain rfl := List.mem_singleton.1 hs
      exact .here _ _ _
    · split at hs
      · rename_i htype
        have hplain : c.role = .plain := by
          rw [role]
          rcases htype with h | h | h <;> rw [h] <;> rfl
        exact .of_target hplain (h.targets s hs)
      · exact h.sites s hs

section Below

variable {c : Cst} (h : ∀ d ∈ c.children, SitesPlaced d) {standing : Standing}
  (own : Option Bool) {s : Site}

include h

theorem placed_sitesIn {fields : List String} (hs : s ∈ sitesIn fields 0 c.children)
    (hown : ∀ j, (∀ f ∈ fields, c.children.findIdx? (fills f) ≠ some j) →
      c.opensAround j standing = own ∧ c.standingAt j standing = .construct) :
    Placed c standing (.inside own s) := by
  obtain ⟨j, d, hd, ⟨r, hr, rfl⟩, hother⟩ := mem_sitesIn hs
  obtain ⟨hopens, hstanding⟩ := hown j hother
  rw [Nat.zero_add]
  refine .below hd hopens ?_
  rw [hstanding]
  exact (h d (List.mem_of_getElem? hd)).sites r hr

theorem placed_sitesAt {reading : Reading} {field : String}
    (hs : s ∈ sitesAt reading field 0 c.children)
    (hown : ∀ j, c.children.findIdx? (fills field) = some j → c.opensAround j standing = own)
    (hread : ∀ j d, c.children.findIdx? (fills field) = some j → c.child? field = some d →
      SitesPlaced d → ∀ r ∈ d.readAs reading, Placed d (c.standingAt j standing) r) :
    Placed c standing (.inside own s) := by
  obtain ⟨j, d, hj, hd, hfind, r, hr, rfl⟩ := mem_sitesAt hs
  rw [Nat.zero_add]
  exact .below hd (hown j hj) (hread j d hj hfind (h d (List.mem_of_getElem? hd)) r hr)

theorem placed_targetSitesIn (hs : s ∈ targetSitesIn 0 c.children)
    (hopens : ∀ j, c.opensAround j standing = none)
    (hstanding : ∀ j, c.standingAt j standing = .construct) : Placed c standing s := by
  obtain ⟨j, d, hd, r, hr, rfl⟩ := mem_targetSitesIn hs
  rw [Nat.zero_add]
  refine Placed.below (r := r) hd (hopens j) ?_
  rw [hstanding]
  exact (h d (List.mem_of_getElem? hd)).targetSitesOf hr

/-- The parts of a construct with the same scope around all of them, or none. -/
theorem placed_parts {fields : List String} (hs : s ∈ sitesIn fields 0 c.children)
    (hopens : ∀ j, c.opensAround j .construct = own) (hloop : c.role ≠ .loop) :
    Placed c .construct (.inside own s) := by
  refine placed_sitesIn h own hs fun j _ => ⟨hopens j, ?_⟩
  rw [standingAt, if_neg fun hj => hloop hj.1]

/-- A field that is simplified in the scope around the construct. -/
theorem placed_field {field : String} (hs : s ∈ sitesAt .expression field 0 c.children)
    (hopens : ∀ j, c.children.findIdx? (fills field) = some j →
      c.opensAround j .construct = none) (hloop : c.role ≠ .loop) :
    Placed c .construct s := by
  refine placed_sitesAt h none hs hopens fun j d _ _ hd => ?_
  rw [standingAt, if_neg fun hj => hloop hj.1]
  exact hd.sites

theorem placed_parameters (hs : s ∈ sitesAt .parameters "parameters" 0 c.children)
    (hopens : ∀ j, c.children.findIdx? (fills "parameters") = some j →
      c.opensAround j .construct = own) :
    Placed c .construct (.inside own s) := by
  refine placed_sitesAt h own hs hopens fun j d _ _ _ r hr => ?_
  obtain rfl := List.mem_singleton.1 hr
  exact .here _ _ _

theorem placed_method (hr : c.role = .methodDefinition) (hs : s ∈ c.sites) :
    Placed c .construct s := by
  have hloop : c.role ≠ .loop := by simp [hr]
  have howner : ∀ j, c.children.findIdx? (fills "object") = some j →
      c.opensAround j .construct = none := by
    intro j hj
    simp [opensAround, hr, hj]
  have hinner : ∀ j, c.children.findIdx? (fills "object") ≠ some j →
      c.opensAround j .construct = some false := by
    intro j hj
    simp [opensAround, hr, hj]
  obtain ⟨i, cs⟩ := c
  rw [sites, hr] at hs
  simp only [List.mem_append, List.mem_map] at hs
  rcases hs with (hs | hs) | ⟨r, hs | hs, rfl⟩
  · exact placed_field h hs howner hloop
  · split at hs
    · obtain rfl := List.mem_singleton.1 hs
      exact .here _ _ _
    · exact absurd hs List.not_mem_nil
  · exact placed_parameters h (some false) hs fun j hj =>
      hinner j (findIdx?_fills_ne (by simp) hj)
  · refine placed_sitesIn h (some false) hs fun j hj => ⟨hinner j (hj _ (by simp)), ?_⟩
    rw [standingAt, if_neg fun hj => hloop hj.1]

theorem placed_block (hr : c.role = .block) (hs : s ∈ c.sites) : Placed c .construct s := by
  have hopens : ∀ j, c.opensAround j .construct = some true := by
    intro j
    simp [opensAround, hr]
  have hloop : c.role ≠ .loop := by simp [hr]
  obtain ⟨i, cs⟩ := c
  rw [sites, hr] at hs
  obtain ⟨r, hmem, rfl⟩ := List.mem_map.1 hs
  rcases List.mem_append.1 hmem with hmem | hmem
  · exact placed_parameters h (some true) hmem fun j _ => hopens j
  · exact placed_parts h (some true) hmem hopens hloop

theorem placed_assignment (hr : c.role = .assignment) (hs : s ∈ c.sites) :
    Placed c .construct s := by
  have hloop : c.role ≠ .loop := by simp [hr]
  have hopens : ∀ j, c.opensAround j .construct = none := by
    intro j
    simp [opensAround, hr]
  have hparts : ∀ {fields}, s ∈ sitesIn fields 0 c.children → Placed c .construct s :=
    fun hs => placed_parts h none hs hopens hloop
  obtain ⟨i, cs⟩ := c
  rw [sites, hr] at hs
  simp only at hs
  split at hs
  · exact hparts hs
  · rename_i left hleft
    split at hs
    · rename_i htarget
      rcases List.mem_append.1 hs with hs | hs
      · refine placed_sitesAt h none hs (fun j _ => hopens j) fun j d hj hd hp r hread => ?_
        obtain rfl : left = d := Option.some.inj (hleft.symm.trans hd)
        rw [standingAt, if_neg fun hj => hloop hj.1]
        rw [readAs] at hread
        split at hread
        · obtain rfl := List.mem_singleton.1 hread
          exact .here _ _ _
        · rename_i hword
          have hplain : left.role = .plain := by
            rw [role, htarget.resolve_left hword]
            rfl
          exact .of_target hplain (hp.targets r hread)
      · exact hparts hs
    · exact hparts hs

theorem placed_loop (hr : c.role = .loop) (hs : s ∈ c.sites) : Placed c .construct s := by
  have hopens : ∀ j, c.opensAround j .construct = none := by
    intro j
    simp [opensAround, hr]
  obtain ⟨i, cs⟩ := c
  rw [sites, hr] at hs
  rcases List.mem_append.1 hs with hs | hs
  · refine placed_sitesAt h none hs (fun j _ => hopens j) fun j d hj _ hp r hread => ?_
    rw [standingAt, if_pos ⟨hr, hj⟩]
    rw [readAs] at hread
    split at hread
    · obtain rfl := List.mem_singleton.1 hread
      exact .here _ _ _
    · exact hp.targets r hread
  · refine placed_sitesIn h none hs fun j hj => ⟨hopens j, ?_⟩
    rw [standingAt, if_neg fun hloop => hj _ (by simp) hloop.2]

theorem placed_sites (hs : s ∈ c.sites) : Placed c .construct s := by
  cases hr : c.role with
  | methodDefinition => exact placed_method h hr hs
  | block => exact placed_block h hr hs
  | assignment => exact placed_assignment h hr hs
  | loop => exact placed_loop h hr hs
  | comment =>
      obtain ⟨i, cs⟩ := c
      rw [sites, hr] at hs
      exact absurd hs List.not_mem_nil
  | parameterList | identifier =>
      obtain ⟨i, cs⟩ := c
      rw [sites, hr] at hs
      obtain rfl := List.mem_singleton.1 hs
      exact .here _ _ _
  | wrapper | group | plain =>
      have hopens : ∀ j, c.opensAround j .construct = none := by simp [opensAround, hr]
      obtain ⟨i, cs⟩ := c
      rw [sites, hr] at hs
      exact placed_parts h none hs hopens (by simp [hr])
  | gate | classDefinition | moduleDefinition =>
      have hopens : ∀ j, c.opensAround j .construct = some false := by simp [opensAround, hr]
      obtain ⟨i, cs⟩ := c
      rw [sites, hr] at hs
      obtain ⟨r, hmem, rfl⟩ := List.mem_map.1 hs
      exact placed_parts h (some false) hmem hopens (by simp [hr])
  | conditional | call =>
      have hopens : ∀ j, c.opensAround j .construct = none := by simp [opensAround, hr]
      obtain ⟨i, cs⟩ := c
      rw [sites, hr] at hs
      rcases List.mem_append.1 hs with hs | hs
      · exact placed_field h hs (fun j _ => hopens j) (by simp [hr])
      · exact placed_parts h none hs hopens (by simp [hr])
  | exceptionVariable =>
      obtain ⟨i, cs⟩ := c
      rw [sites, hr] at hs
      exact placed_targetSitesIn h hs (by simp [opensAround, hr]) (by simp [standingAt, hr])

end Below

theorem sitesPlaced (c : Cst) : SitesPlaced c := by
  induction c using Cst.induction with
  | step c ih =>
      constructor
      · intro s hs
        exact placed_sites ih hs
      · intro s hs
        obtain ⟨i, cs⟩ := c
        rw [targetSites] at hs
        exact placed_targetSitesIn ih hs (by simp [opensAround]) (by simp [standingAt])

/-- The sites of a source file tell the nodes at their addresses and the scopes
around them. -/
theorem mem_fileSites {root : Cst} {s : Site} (hs : s ∈ root.fileSites) :
    root.at? s.address = some s.node ∧ s.scopes = root.scopesOf s.address := by
  obtain ⟨r, hr, rfl⟩ := List.mem_map.1 hs
  have hplaced : Placed root .file (.inside (some false) r) :=
    placed_sitesIn (fun d _ => sitesPlaced d) (some false) hr fun j _ => ⟨rfl, rfl⟩
  exact ⟨hplaced.node, hplaced.scopes⟩

/-- A site sees another if what is declared there is visible from it. -/
theorem visibleFrom_iff {root : Cst} {s d : Site} (hs : s ∈ root.fileSites)
    (hd : d ∈ root.fileSites) : root.VisibleFrom d.address s.address ↔ s.Sees d := by
  have hscopes := (mem_fileSites hs).2
  have hdeclared := (mem_fileSites hd).2
  rw [VisibleFrom, ← hscopes, ← hdeclared]
  constructor
  · rintro ⟨outer, scope, inner, hsplit, hlast, hinherit⟩
    obtain ⟨before, hbefore⟩ := List.getLast?_eq_some_iff.1 hlast
    -- Around one scope there are the same scopes on every way through it.
    have houter : outer = root.scopesOf scope.address :=
      scopesAround_of_append (hscopes.symm.trans hsplit)
    have hsame : before = root.scopesOf scope.address :=
      scopesAround_of_append (hdeclared.symm.trans hbefore)
    refine ⟨inner, ?_, hinherit⟩
    rw [hsplit, hbefore, houter, hsame, List.append_assoc, List.singleton_append]
  · rintro ⟨inner, hsplit, hinherit⟩
    obtain ⟨r, -, rfl⟩ := List.mem_map.1 hd
    have hne : (r.inScope false).scopes ≠ [] := List.cons_ne_nil _ _
    refine ⟨(r.inScope false).scopes.dropLast, (r.inScope false).scopes.getLast hne, inner, ?_,
      List.getLast?_eq_some_getLast hne, hinherit⟩
    rw [hsplit, List.append_cons, List.dropLast_concat_getLast]

end Cst

end RubySmells
