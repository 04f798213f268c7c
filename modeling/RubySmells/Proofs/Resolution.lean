import RubySmells.Proofs.Sites

/-!
# Variables and calls

A bare word becomes a variable or a call, by the locals that are known when it is
come upon. These are the locals of one scope, handed from construct to construct;
here they are traced back to the places that declare them.

* **accounting** — the nodes of the simplified tree that come from sites
  (`Node.siteNodes`) are what the sites become, one by one and in the same order
  (`Accounts`); each construct accounts for its sites if the constructs below it
  do (`Cst.resolves`);
* **what is known** — at a site a name is known if it was known at the start and no
  scope shuts that out, or if an earlier site declares it where it is seen
  (`Site.Knows`). Sites of different children of a node have no scope in common,
  so of the first of them only the locals declared outside of all scopes are
  known at the others (`Site.knows_append`);
* **resolution** — a bare word becomes a variable exactly if an earlier declaration
  of it is visible (`Cst.variable_iff_declaredBefore`).
-/

namespace RubySmells

/-! ## Nodes that come from sites -/

/-- Whether a node with this header comes from a site: it is a parameter list, it
assigns to a variable or reads one, or it is a call that was a bare word. -/
def Header.fromSite (h : Header) : Bool :=
  h.kind = .parameterList || h.kind = .localAssignment || h.kind = .localVariable ||
    (h.kind = .call && h.nodeType = "identifier")

/-- The nodes of a tree that come from sites, in pre-order. -/
def Node.siteNodes (n : Node) : List Node :=
  (n.places.map (·.node)).filter (·.header.fromSite)

/-- The nodes in and below children that come from sites. -/
def Child.siteNodes (cs : List Child) : List Node :=
  (cs.filterMap Child.node?).flatMap Node.siteNodes

theorem Node.map_node_placesFrom (i : Nat) (ns : List Node) :
    (Node.placesFrom i ns).map (·.node) = ns.flatMap fun n => n.places.map (·.node) := by
  induction ns generalizing i with
  | nil => rfl
  | cons n ns ih =>
      rw [Node.placesFrom, List.map_append, List.map_map, ih, List.flatMap_cons]
      rfl

theorem Node.siteNodes_mk (h : Header) (cs : List Child) :
    (Node.mk h cs).siteNodes =
      (if h.fromSite then [.mk h cs] else []) ++ Child.siteNodes cs := by
  have hbelow : (Node.placesFrom 0 (Node.mk h cs).nodes).map (·.node) =
      (cs.filterMap Child.node?).flatMap fun n => n.places.map (·.node) :=
    Node.map_node_placesFrom 0 _
  rw [Node.siteNodes, Node.places_eq, List.map_cons, hbelow, List.filter_cons,
    List.filter_flatMap, Child.siteNodes]
  show (if h.fromSite = true then _ else _) = _
  split <;> rfl

namespace Child

theorem siteNodes_append (xs ys : List Child) :
    siteNodes (xs ++ ys) = siteNodes xs ++ siteNodes ys := by
  rw [siteNodes, List.filterMap_append, List.flatMap_append]
  rfl

theorem siteNodes_cons (c : Child) (cs : List Child) :
    siteNodes (c :: cs) = siteNodes [c] ++ siteNodes cs :=
  siteNodes_append [c] cs

@[simp] theorem siteNodes_node (n : Node) : siteNodes [.node n] = n.siteNodes :=
  List.append_nil _

theorem siteNodes_texts (names : List String) : siteNodes (names.map .text) = [] := by
  induction names with
  | nil => rfl
  | cons name names ih => exact ih

theorem siteNodes_children (m : Cst.Made) :
    siteNodes m.children = m.1.flatMap Node.siteNodes := by
  rw [siteNodes, Cst.Made.children, List.filterMap_map]
  congr 1
  exact List.filterMap_some

/-- Children that are gathered in one place keep their nodes. -/
theorem siteNodes_single {h : Header} (hh : h.fromSite = false) (cs : List Child) :
    siteNodes [Child.single h cs] = siteNodes cs := by
  rcases cs with _ | ⟨c, _ | ⟨c', cs⟩⟩
  · rfl
  · rfl
  · show siteNodes [.node (.mk h (c :: c' :: cs))] = _
    rw [siteNodes_node, Node.siteNodes_mk, hh]
    rfl

end Child

/-! ## What is known at a site -/

namespace Site

variable (source : List UInt8)

/-- Whether a site declares a name. A parameter list declares the names of its
parameters, the bare words inside those that are patterns, and the locals
listed beside them; what is assigned to is declared. -/
def Declares (d : Site) (name : String) : Prop :=
  match d.use with
  | .parameters =>
    (∃ p ∈ d.node.parameters, p.type ≠ "destructured_parameter" ∧
      p.parameterName source = name) ∨
    (∃ p ∈ d.node.parameters, p.type = "destructured_parameter" ∧
      ∃ word ∈ p.preorder, word.type = "identifier" ∧ word.text source = name) ∨
    ∃ beside ∈ d.node.childrenAt "locals", beside.text source = name
  | .target => d.node.text source = name
  | .word => False
  | .noParameters => False

/-- Whether a name is known at a site: it was known before, and no scope shuts that
out, or a site that came earlier declares it where it can be seen. -/
def Knows (before : NameSet) (earlier : List Site) (s : Site) (name : String) : Prop :=
  (name ∈ before ∧ ∀ t ∈ s.scopes, t.inherits = true) ∨
    ∃ d ∈ earlier, d.Declares source name ∧ s.Sees d

/-- What a site becomes, given whether its name is known. -/
def Becomes (s : Site) (known : Prop) (n : Node) : Prop :=
  match s.use with
  | .word =>
    s.node.role = .identifier ∧
      ∃ isLocal, (isLocal = true ↔ known) ∧ n = s.node.resolved source isLocal
  | .target =>
    n.kind = .localAssignment ∧ n.name = some (s.node.text source) ∧ n.line = s.node.line
  | .parameters => n = s.node.parameterListNode source
  | .noParameters => n = s.node.emptyParameterList

/-- The node that opens the outermost scope around a site. -/
def outermost? (s : Site) : Option Address :=
  s.scopes.head?.map (·.address)

/-- Whether two sites have no scope in common, or the first stands in none. -/
def Apart (d s : Site) : Prop :=
  d.outermost? = none ∨ d.outermost? ≠ s.outermost?

variable {source}

theorem outermost?_under (i : Nat) (s : Site) :
    (s.under i).outermost? = s.outermost?.map (i :: ·) := by
  obtain ⟨use, node, address, _ | ⟨t, scopes⟩⟩ := s <;> rfl

theorem sees_under {i : Nat} {s d : Site} : (s.under i).Sees (d.under i) ↔ s.Sees d := by
  have hinj : ∀ t t' : Scope, t.under i = t'.under i → t = t' := by
    rintro ⟨a, inherits⟩ ⟨a', inherits'⟩ h
    simpa [Scope.under] using h
  constructor
  · rintro ⟨inner, hsplit, hinherit⟩
    obtain ⟨outer, inner', hscopes, houter, rfl⟩ := List.map_eq_append_iff.1 hsplit
    have hd : outer = d.scopes := (List.map_inj_right hinj).1 houter
    refine ⟨inner', hd ▸ hscopes, fun t ht => ?_⟩
    exact hinherit (t.under i) (List.mem_map_of_mem ht)
  · rintro ⟨inner, hsplit, hinherit⟩
    refine ⟨inner.map (.under i), ?_, ?_⟩
    · show s.scopes.map _ = d.scopes.map _ ++ _
      rw [hsplit, List.map_append]
    · intro t ht
      obtain ⟨t', ht', rfl⟩ := List.mem_map.1 ht
      exact hinherit t' ht'

theorem sees_inScope {inherits : Bool} {s d : Site} :
    (s.inScope inherits).Sees (d.inScope inherits) ↔ s.Sees d := by
  constructor
  · rintro ⟨inner, hsplit, hinherit⟩
    exact ⟨inner, (List.cons.inj hsplit).2, hinherit⟩
  · rintro ⟨inner, hsplit, hinherit⟩
    refine ⟨inner, ?_, hinherit⟩
    show _ :: s.scopes = _ :: d.scopes ++ inner
    rw [hsplit, List.cons_append]

/-- From outside all the scopes of a site, what it declares can be seen only if
there are none. -/
theorem sees_of_apart {s d : Site} (h : d.Apart s) :
    s.Sees d ↔ d.scopes = [] ∧ ∀ t ∈ s.scopes, t.inherits = true := by
  constructor
  · rintro ⟨inner, hsplit, hinherit⟩
    cases hd : d.scopes with
    | nil =>
        rw [hd, List.nil_append] at hsplit
        exact ⟨rfl, hsplit ▸ hinherit⟩
    | cons t scopes =>
        rw [Apart, outermost?, outermost?, hsplit, hd] at h
        simp at h
  · rintro ⟨hd, hinherit⟩
    exact ⟨s.scopes, by rw [hd, List.nil_append], hinherit⟩

section Knows

variable {before mid start : NameSet} {earlier ss : List Site} {s : Site} {name : String}

/-- What sites that stand apart leave known is what is seen of them. -/
theorem knows_append
    (hmid : name ∈ mid ↔ name ∈ before ∨ ∃ d ∈ ss, d.scopes = [] ∧ d.Declares source name)
    (hapart : ∀ d ∈ ss, d.Apart s) :
    s.Knows source before (ss ++ earlier) name ↔ s.Knows source mid earlier name := by
  rw [Knows, Knows, hmid]
  constructor
  · rintro (⟨hname, hinherit⟩ | ⟨d, hd, hdeclares, hsees⟩)
    · exact .inl ⟨.inl hname, hinherit⟩
    · rcases List.mem_append.1 hd with hd | hd
      · obtain ⟨hscopes, hinherit⟩ := (sees_of_apart (hapart d hd)).1 hsees
        exact .inl ⟨.inr ⟨d, hd, hscopes, hdeclares⟩, hinherit⟩
      · exact .inr ⟨d, hd, hdeclares, hsees⟩
  · rintro (⟨hname | ⟨d, hd, hscopes, hdeclares⟩, hinherit⟩ | ⟨d, hd, hdeclares, hsees⟩)
    · exact .inl ⟨hname, hinherit⟩
    · exact .inr ⟨d, List.mem_append_left _ hd, hdeclares,
        (sees_of_apart (hapart d hd)).2 ⟨hscopes, hinherit⟩⟩
    · exact .inr ⟨d, List.mem_append_right _ hd, hdeclares, hsees⟩

/-- As much is known at sites that are seen from further outside, if they see each
other as before. -/
theorem knows_map {f : Site → Site}
    (hbefore : (name ∈ before ∧ ∀ t ∈ (f s).scopes, t.inherits = true) ↔
      name ∈ start ∧ ∀ t ∈ s.scopes, t.inherits = true)
    (hdeclares : ∀ d, (f d).Declares source name ↔ d.Declares source name)
    (hsees : ∀ d, (f s).Sees (f d) ↔ s.Sees d) :
    (f s).Knows source before (earlier.map f) name ↔ s.Knows source start earlier name := by
  refine or_congr hbefore ⟨?_, ?_⟩
  · rintro ⟨_, hmem, hd⟩
    obtain ⟨d, hearlier, rfl⟩ := List.mem_map.1 hmem
    exact ⟨d, hearlier, (hdeclares d).1 hd.1, (hsees d).1 hd.2⟩
  · rintro ⟨d, hmem, hd⟩
    exact ⟨f d, List.mem_map_of_mem hmem, (hdeclares d).2 hd.1, (hsees d).2 hd.2⟩

theorem knows_under (i : Nat) :
    (s.under i).Knows source before (earlier.map (.under i)) name ↔
      s.Knows source before earlier name :=
  knows_map (and_congr_right' List.forall_mem_map) (fun _ => Iff.rfl) fun _ => sees_under

/-- Inside a new scope the locals before are known if that scope knows them. -/
theorem knows_inScope {inherits : Bool} (hstart : start = if inherits then before else ∅) :
    (s.inScope inherits).Knows source before (earlier.map (.inScope inherits)) name ↔
      s.Knows source start earlier name := by
  refine knows_map ?_ (fun _ => Iff.rfl) fun _ => sees_inScope
  subst hstart
  cases inherits <;> simp [inScope]

end Knows

end Site

/-! ## Accounting for nodes by sites -/

/-- The nodes are what the sites become one by one, if the locals before are
known at the start, and the locals after are those and the ones declared
outside of all scopes on the way. -/
structure Accounts (source : List UInt8) (before : NameSet) (ss : List Site) (ns : List Node)
    (after : NameSet) : Prop where
  mem_after : ∀ name, name ∈ after ↔
    name ∈ before ∨ ∃ d ∈ ss, d.scopes = [] ∧ d.Declares source name
  length_eq : ns.length = ss.length
  becomes : ∀ (k : Nat) (s : Site) (n : Node), ss[k]? = some s → ns[k]? = some n →
    s.Becomes source (s.Knows source before (ss.take k) (s.node.text source)) n

namespace Accounts

variable {source : List UInt8} {before mid after : NameSet} {ss ts : List Site}
  {ns ms : List Node}

theorem nil (source : List UInt8) (locals : NameSet) : Accounts source locals [] [] locals where
  mem_after := by simp
  length_eq := rfl
  becomes := by simp

theorem single {s : Site} {n : Node} (hscopes : s.scopes = [])
    (hafter : ∀ name, name ∈ after ↔ name ∈ before ∨ s.Declares source name)
    (hbecomes : s.Becomes source (s.node.text source ∈ before) n) :
    Accounts source before [s] [n] after where
  mem_after := by simpa [hscopes] using hafter
  length_eq := rfl
  becomes := by
    intro k t m ht hm
    cases k with
    | succ k => exact absurd ht (by simp)
    | zero =>
        obtain rfl : s = t := by simpa using ht
        obtain rfl : n = m := by simpa using hm
        have hknows : s.Knows source before (List.take 0 [s]) (s.node.text source) ↔
            s.node.text source ∈ before := by
          simp [Site.Knows, hscopes]
        rwa [propext hknows]

/-- Sites one after the other. None of the first may share a scope with one of the
others. -/
theorem append (h₁ : Accounts source before ss ns mid) (h₂ : Accounts source mid ts ms after)
    (hapart : ∀ d ∈ ss, ∀ s ∈ ts, d.Apart s) :
    Accounts source before (ss ++ ts) (ns ++ ms) after where
  mem_after := by
    intro name
    rw [h₂.mem_after, h₁.mem_after]
    simp only [List.mem_append, or_assoc, or_and_right, exists_or]
  length_eq := by rw [List.length_append, List.length_append, h₁.length_eq, h₂.length_eq]
  becomes := by
    intro k s n hs hn
    by_cases hk : k < ss.length
    · rw [List.getElem?_append_left hk] at hs
      rw [List.getElem?_append_left (h₁.length_eq ▸ hk)] at hn
      rw [List.take_append_of_le_length (Nat.le_of_lt hk)]
      exact h₁.becomes k s n hs hn
    · have hk := Nat.le_of_not_lt hk
      rw [List.getElem?_append_right hk] at hs
      rw [List.getElem?_append_right (h₁.length_eq ▸ hk), h₁.length_eq] at hn
      rw [List.take_append, List.take_of_length_le hk, propext (Site.knows_append
        (h₁.mem_after _) fun d hd => hapart d hd s (List.mem_of_getElem? hs))]
      exact h₂.becomes _ s n hs hn

/-- A site outside of all scopes, and others after it. -/
theorem cons {s : Site} (h₁ : Accounts source before [s] ns mid) (hs : s.outermost? = none)
    (h₂ : Accounts source mid ts ms after) :
    Accounts source before (s :: ts) (ns ++ ms) after := by
  refine append h₁ h₂ fun d hd _ _ => ?_
  obtain rfl := List.mem_singleton.1 hd
  exact .inl hs

/-- The same nodes come from sites that are seen from further outside, if as much is
known at them. -/
theorem becomes_map {start : NameSet} (h : Accounts source start ss ns after) (f : Site → Site)
    (hsite : ∀ s, (f s).use = s.use ∧ (f s).node = s.node)
    (hknows : ∀ earlier s name, (f s).Knows source before (earlier.map f) name ↔
      s.Knows source start earlier name)
    {k : Nat} {s : Site} {n : Node} (hs : (ss.map f)[k]? = some s) (hn : ns[k]? = some n) :
    s.Becomes source (s.Knows source before ((ss.map f).take k) (s.node.text source)) n := by
  rw [List.getElem?_map] at hs
  obtain ⟨r, hr, rfl⟩ := Option.map_eq_some_iff.1 hs
  have hbecomes := h.becomes k r n hr hn
  rw [← List.map_take, propext (hknows _ r _)]
  rw [Site.Becomes] at hbecomes ⊢
  rwa [(hsite r).1, (hsite r).2]

theorem under (h : Accounts source before ss ns after) (i : Nat) :
    Accounts source before (ss.map (.under i)) ns after where
  mem_after := by
    intro name
    rw [h.mem_after]
    refine or_congr_right ⟨?_, ?_⟩
    · rintro ⟨d, hd, hscopes, hdeclares⟩
      exact ⟨d.under i, List.mem_map_of_mem hd, List.map_eq_nil_iff.2 hscopes, hdeclares⟩
    · rintro ⟨_, hmem, hscopes, hdeclares⟩
      obtain ⟨d, hd, rfl⟩ := List.mem_map.1 hmem
      exact ⟨d, hd, List.map_eq_nil_iff.1 hscopes, hdeclares⟩
  length_eq := by rw [List.length_map, h.length_eq]
  becomes := fun k s n hs hn =>
    h.becomes_map (.under i) (fun _ => ⟨rfl, rfl⟩) (fun _ _ _ => Site.knows_under i) hs hn

/-- Sites in a scope of their own leave no local behind. -/
theorem inScope {inherits : Bool} {start : NameSet}
    (hstart : start = if inherits then before else ∅)
    (h : Accounts source start ss ns after) :
    Accounts source before (ss.map (.inScope inherits)) ns before where
  mem_after := by
    intro name
    simp [Site.inScope]
  length_eq := by rw [List.length_map, h.length_eq]
  becomes := fun k s n hs hn =>
    h.becomes_map (.inScope inherits) (fun _ => ⟨rfl, rfl⟩)
      (fun _ _ _ => Site.knows_inScope hstart) hs hn

end Accounts

/-! ## Sites of one kind -/

theorem Cst.role_eq_identifier_iff {c : Cst} : c.role = .identifier ↔ c.type = "identifier" := by
  constructor
  · intro h
    rw [Cst.role] at h
    unfold Role.ofType at h
    split at h <;> first | assumption | exact absurd h (by simp)
  · intro h
    rw [Cst.role, h]
    rfl

theorem Site.declares_parameters {source : List UInt8} {c : Cst} {name : String} :
    (Site.here .parameters c).Declares source name ↔ name ∈ c.declaredLocals source := by
  show (_ ∨ _ ∨ _) ↔ _
  simp only [Cst.declaredLocals, List.mem_append, List.mem_flatMap, List.mem_map]
  constructor
  · rintro (⟨p, hp, htype, rfl⟩ | ⟨p, hp, htype, word, hword, hrole, rfl⟩ | ⟨d, hd, rfl⟩)
    · refine .inl ⟨p, hp, ?_⟩
      rw [Cst.parameterLocals, if_neg htype]
      exact List.mem_singleton_self _
    · refine .inl ⟨p, hp, ?_⟩
      rw [Cst.parameterLocals, if_pos htype]
      exact List.mem_map_of_mem (List.mem_filter.2
        ⟨hword, decide_eq_true (Cst.role_eq_identifier_iff.2 hrole)⟩)
    · exact .inr ⟨d, hd, rfl⟩
  · rintro (⟨p, hp, hname⟩ | ⟨d, hd, rfl⟩)
    · rw [Cst.parameterLocals] at hname
      split at hname
      · rename_i htype
        obtain ⟨word, hword, rfl⟩ := List.mem_map.1 hname
        obtain ⟨hword, hrole⟩ := List.mem_filter.1 hword
        exact .inr (.inl ⟨p, hp, htype, word, hword,
          Cst.role_eq_identifier_iff.1 (of_decide_eq_true hrole), rfl⟩)
      · rename_i htype
        exact .inl ⟨p, hp, htype, (List.mem_singleton.1 hname).symm⟩
    · exact .inr (.inr ⟨d, hd, rfl⟩)

namespace Accounts

variable (source : List UInt8) (locals : NameSet) (c : Cst)

theorem parameters :
    Accounts source locals [.here .parameters c] (c.parameterListNode source).siteNodes
      (locals.insertAll (c.declaredLocals source)) := by
  have hnodes : (c.parameterListNode source).siteNodes = [c.parameterListNode source] := by
    rw [Cst.parameterListNode, Node.siteNodes_mk, Child.siteNodes_texts]
    rfl
  rw [hnodes]
  refine .single rfl (fun name => ?_) rfl
  rw [NameSet.mem_insertAll, Site.declares_parameters]
  exact Or.comm

theorem noParameters :
    Accounts source locals [.here .noParameters c] c.emptyParameterList.siteNodes locals := by
  have hnodes : c.emptyParameterList.siteNodes = [c.emptyParameterList] := by
    rw [Cst.emptyParameterList, Node.siteNodes_mk]
    rfl
  rw [hnodes]
  exact .single rfl (fun name => (or_iff_left id).symm) rfl

theorem target {n : Node} (hkind : n.kind = .localAssignment)
    (hname : n.name = some (c.text source)) (hline : n.line = c.line) :
    Accounts source locals [.here .target c] [n] (locals.insertAll [c.text source]) := by
  refine .single rfl (fun name => ?_) ⟨hkind, hname, hline⟩
  rw [NameSet.mem_insertAll, List.mem_singleton, eq_comm]
  exact Or.comm

theorem word (hr : c.role = .identifier) :
    Accounts source locals [.here .word c]
      (c.resolved source (decide (c.text source ∈ locals))).siteNodes locals := by
  have hnodes : ∀ isLocal, (c.resolved source isLocal).siteNodes =
      [c.resolved source isLocal] := by
    intro isLocal
    have htype : c.type = "identifier" := Cst.role_eq_identifier_iff.1 hr
    cases isLocal <;>
      simp [Cst.resolved, Node.siteNodes_mk, Header.fromSite, Cst.header, htype,
        Child.siteNodes, Child.node?]
  rw [hnodes]
  exact .single rfl (fun name => (or_iff_left id).symm) ⟨hr, _, decide_eq_true_iff, rfl⟩

end Accounts

/-! ## Constructs -/

namespace Cst

variable {source : List UInt8} {before : NameSet} {ss ts : List Site} {m m' : Made}

/-- What was made accounts for sites. -/
def Accounted (source : List UInt8) (before : NameSet) (ss : List Site) (m : Made) : Prop :=
  Accounts source before ss (m.1.flatMap Node.siteNodes) m.2

theorem Accounted.append (h₁ : Accounted source before ss m) (h₂ : Accounted source m.2 ts m')
    (hapart : ∀ d ∈ ss, ∀ s ∈ ts, d.Apart s) :
    Accounted source before (ss ++ ts) (m.1 ++ m'.1, m'.2) := by
  rw [Accounted, List.flatMap_append]
  exact Accounts.append h₁ h₂ hapart

/-- A node that comes from no site, over children that do. -/
theorem Accounted.node {h : Header} {children : List Child} {after : NameSet}
    (hh : h.fromSite = false) (hbelow : Accounts source before ss (Child.siteNodes children) after) :
    Accounted source before ss ([.mk h children], after) := by
  rw [Accounted, List.flatMap_singleton, Node.siteNodes_mk, hh]
  exact hbelow

theorem Accounted.wrap {h : Header} (hh : h.fromSite = false)
    (hm : Accounted source before ss m) : Accounted source before ss (m.wrap h) := by
  refine .node hh ?_
  rw [Child.siteNodes_children]
  exact hm

/-- Sites of different children have no scope in common. -/
theorem apart_under {i j : Nat} (hij : i ≠ j) (d s : Site) : (d.under i).Apart (s.under j) := by
  rw [Site.Apart, Site.outermost?_under, Site.outermost?_under]
  cases d.outermost? with
  | none => exact .inl rfl
  | some a => cases s.outermost? <;> simp [hij]

theorem apart_sitesAt_sitesIn {reading : Reading} {field : String} {fields : List String}
    (hfield : field ∈ fields) {cs : List Cst} {d s : Site} (hd : d ∈ sitesAt reading field 0 cs)
    (hs : s ∈ sitesIn fields 0 cs) : d.Apart s := by
  obtain ⟨j, _, hj, -, -, q, -, rfl⟩ := mem_sitesAt hd
  obtain ⟨k, _, -, ⟨r, -, rfl⟩, hother⟩ := mem_sitesIn hs
  refine apart_under (fun hjk => hother field hfield ?_) q r
  rw [hj, Nat.add_left_cancel hjk]

/-- The sites of a field have no scope in common with the node itself, nor with what
stands in a scope that the node opens. -/
theorem apart_sitesAt {reading : Reading} {field : String} {cs : List Cst} {d s : Site}
    (hd : d ∈ sitesAt reading field 0 cs) (hs : s.outermost? = none ∨ s.outermost? = some []) :
    d.Apart s := by
  obtain ⟨j, _, -, -, -, q, -, rfl⟩ := mem_sitesAt hd
  rw [Site.Apart, Site.outermost?_under]
  cases q.outermost? with
  | none => exact .inl rfl
  | some a => rcases hs with hs | hs <;> simp [hs]

/-- A grammar node accounts for its sites, whether it is simplified or taken apart
as a target. -/
structure Resolves (source : List UInt8) (c : Cst) : Prop where
  convert : ∀ before, Accounted source before c.sites (convert source c before)
  targets : ∀ before, Accounted source before c.targetSites (targetsBelow source c before)

section Below

variable {cs : List Cst} (h : ∀ d ∈ cs, Resolves source d)

include h

theorem accounted_eachIn (fields : List String) (i : Nat) (before : NameSet) :
    Accounted source before (sitesIn fields i cs) (eachIn source fields cs before) := by
  induction cs generalizing fields i before with
  | nil =>
      rw [sitesIn, eachIn]
      exact .nil source before
  | cons c cs ih =>
      have ih := ih fun d hd => h d (List.mem_cons_of_mem _ hd)
      rw [sitesIn, eachIn]
      cases fields.find? (fun f => c.fills f) with
      | some f => exact ih (fields.erase f) (i + 1) before
      | none =>
          cases c.named with
          | false => exact ih fields (i + 1) before
          | true =>
              have hfirst := ((h c List.mem_cons_self).convert before).under i
              refine Accounted.append hfirst (ih fields (i + 1) _) fun d hd s hs => ?_
              obtain ⟨q, -, rfl⟩ := List.mem_map.1 hd
              obtain ⟨j, _, -, ⟨r, -, rfl⟩, -⟩ := mem_sitesIn hs
              exact apart_under (by omega) q r

theorem accounted_targetsIn (i : Nat) (before : NameSet) :
    Accounted source before (targetSitesIn i cs) (targetsIn source cs before) := by
  induction cs generalizing i before with
  | nil =>
      rw [targetSitesIn, targetsIn]
      exact .nil source before
  | cons c cs ih =>
      have ih := ih fun d hd => h d (List.mem_cons_of_mem _ hd)
      have hc := h c List.mem_cons_self
      rw [targetSitesIn_cons, targetsIn]
      refine Accounted.append (Accounts.under ?_ i) (ih (i + 1) _) fun d hd s hs => ?_
      · rw [targetSitesOf]
        by_cases hnamed : (!c.named) = true
        · rw [if_pos hnamed, if_pos hnamed]
          exact .nil source before
        · rw [if_neg hnamed, if_neg hnamed]
          split
          · exact .target source before c rfl rfl rfl
          · split
            · exact hc.targets before
            · exact hc.convert before
      · obtain ⟨q, -, rfl⟩ := List.mem_map.1 hd
        obtain ⟨j, _, -, r, -, rfl⟩ := mem_targetSitesIn hs
        exact apart_under (by omega) q r

theorem accounted_convertAt (field : String) (before : NameSet) :
    Accounted source before (sitesAt .expression field 0 cs) (convertAt source field cs before) := by
  rw [convertAt_eq]
  rcases sitesAt_cases .expression field 0 cs with ⟨hnone, hsites⟩ | ⟨j, d, -, hd, hfind, hsites⟩
  · rw [hnone, hsites]
    exact .nil source before
  · rw [hfind, hsites]
    exact ((h d (List.mem_of_getElem? hd)).convert before).under _

theorem accounts_slotIn (field : String) (before : NameSet) :
    Accounts source before (sitesAt .expression field 0 cs)
      (Child.siteNodes [(slotIn source field cs before).1]) (slotIn source field cs before).2 := by
  rw [slotIn_eq]
  rcases sitesAt_cases .expression field 0 cs with ⟨hnone, hsites⟩ | ⟨j, d, -, hd, hfind, hsites⟩
  · rw [hnone, hsites]
    exact .nil source before
  · rw [hfind, hsites]
    simp only [Made.single]
    rw [Child.siteNodes_single rfl, Child.siteNodes_children]
    exact ((h d (List.mem_of_getElem? hd)).convert before).under _

end Below

theorem sitesIn_of_isEmpty {c : Cst} (h : c.namedChildren.isEmpty = true) :
    sitesIn [] 0 c.children = [] := by
  have hunnamed : ∀ d ∈ c.children, ¬ d.named = true := by
    simpa [namedChildren] using h
  generalize 0 = i
  generalize c.children = cs at hunnamed
  induction cs generalizing i with
  | nil => rw [sitesIn]
  | cons d cs ih =>
      rw [sitesIn]
      simp only [List.find?_nil, if_neg (hunnamed d List.mem_cons_self)]
      exact ih (i + 1) fun e he => hunnamed e (List.mem_cons_of_mem _ he)

section Constructs

variable {c : Cst} (h : ∀ d ∈ c.children, Resolves source d) (before : NameSet)

include h

theorem accounted_parts (fields : List String) :
    Accounts source before (sitesIn fields 0 c.children)
      (Child.siteNodes (Made.children (eachIn source fields c.children before)))
      (eachIn source fields c.children before).2 := by
  rw [Child.siteNodes_children]
  exact accounted_eachIn h fields 0 before

theorem accounted_method (hr : c.role = .methodDefinition) :
    Accounted source before c.sites (convert source c before) := by
  have howner := accounted_convertAt h "object" before
  have hbody := fun start => accounted_parts h start ["object", "name", "parameters"]
  obtain ⟨i, cs⟩ := c
  rw [sites, convert, hr]
  refine .node rfl ?_
  rw [Child.siteNodes_append, Child.siteNodes_cons, Child.siteNodes_node,
    Child.siteNodes_children]
  rcases sitesAt_cases .parameters "parameters" 0 cs with
    ⟨hnone, hsites⟩ | ⟨j, d, -, hd, hfind, hsites⟩
  · have hnone : (Cst.mk i cs).child? "parameters" = none := hnone
    simp only [hnone, hsites, List.append_assoc]
    refine Accounts.append howner (.cons (.noParameters source _ _) rfl (.inScope rfl (hbody ∅))) ?_
    intro d hd s hs
    rcases List.mem_cons.1 hs with rfl | hs
    · exact apart_sitesAt hd (.inl rfl)
    · obtain ⟨r, -, rfl⟩ := List.mem_map.1 hs
      exact apart_sitesAt hd (.inr rfl)
  · have hfind : (Cst.mk i cs).child? "parameters" = some d := hfind
    have hparameters := (Accounts.parameters source ∅ d).under (0 + j)
    simp only [hfind, hsites, List.append_assoc]
    refine Accounts.append howner (.inScope rfl (.cons hparameters rfl (hbody _))) ?_
    intro d hd s hs
    obtain ⟨r, -, rfl⟩ := List.mem_map.1 hs
    exact apart_sitesAt hd (.inr rfl)

theorem accounted_block (hr : c.role = .block) :
    Accounted source before c.sites (convert source c before) := by
  have hbody := fun start => accounted_parts h start ["parameters"]
  obtain ⟨i, cs⟩ := c
  rw [sites, convert, hr]
  refine .node rfl ?_
  rw [Child.siteNodes_append]
  rcases sitesAt_cases .parameters "parameters" 0 cs with
    ⟨hnone, hsites⟩ | ⟨j, d, -, hd, hfind, hsites⟩
  · have hnone : (Cst.mk i cs).child? "parameters" = none := hnone
    simp only [hnone, hsites]
    exact .inScope rfl (hbody before)
  · have hfind : (Cst.mk i cs).child? "parameters" = some d := hfind
    have hparameters := (Accounts.parameters source before d).under (0 + j)
    simp only [hfind, hsites, Child.siteNodes_node]
    exact .inScope rfl (.cons hparameters rfl (hbody _))

/-- A construct that is made of a field in one place and its other parts. -/
theorem accounts_slot (field : String) (fields : List String) (hfield : field ∈ fields) :
    Accounts source before
      (sitesAt .expression field 0 c.children ++ sitesIn fields 0 c.children)
      (Child.siteNodes [(slotIn source field c.children before).1] ++
        Child.siteNodes (Made.children
          (eachIn source fields c.children (slotIn source field c.children before).2)))
      (eachIn source fields c.children (slotIn source field c.children before).2).2 :=
  .append (accounts_slotIn h field before) (accounted_parts h _ fields) fun _ hd _ hs =>
    apart_sitesAt_sitesIn hfield hd hs

theorem accounted_assignment (hr : c.role = .assignment) :
    Accounted source before c.sites (convert source c before) := by
  have hparts := accounted_eachIn h [] 0 before
  have hvalues := fun start => accounted_eachIn h ["left"] 0 start
  have hapart : ∀ d ∈ sitesAt .target "left" 0 c.children, ∀ s ∈ sitesIn ["left"] 0 c.children,
      d.Apart s :=
    fun d hd s hs => apart_sitesAt_sitesIn (by simp) hd hs
  obtain ⟨i, cs⟩ := c
  rw [sites, convert, hr]
  rcases sitesAt_cases .target "left" 0 cs with ⟨hnone, -⟩ | ⟨j, left, -, hd, hfind, hsites⟩
  · have hnone : (Cst.mk i cs).child? "left" = none := hnone
    simp only [hnone]
    exact .wrap rfl hparts
  · have hchild : (Cst.mk i cs).child? "left" = some left := hfind
    have hleft := h left (List.mem_of_getElem? hd)
    simp only [hchild]
    by_cases hword : left.role = .identifier
    · rw [if_pos hword, if_pos (.inl hword), Accounted, List.flatMap_singleton,
        Node.siteNodes_mk, Child.siteNodes_cons, Child.siteNodes_children]
      refine Accounts.append ?_ (hvalues _) hapart
      rw [hsites, readAs, if_pos hword]
      exact Accounts.under (.target source before left rfl rfl rfl) _
    · rw [if_neg hword]
      by_cases hlist : left.type = "left_assignment_list"
      · rw [if_pos hlist, if_pos (.inr hlist)]
        refine .wrap rfl (.append ?_ (hvalues _) hapart)
        rw [hsites, readAs, if_neg hword, targetsAt_eq, hfind]
        exact Accounts.under (hleft.targets before) _
      · rw [if_neg hlist, if_neg (not_or.2 ⟨hword, hlist⟩)]
        exact .wrap rfl hparts

theorem accounted_loop (hr : c.role = .loop) :
    Accounted source before c.sites (convert source c before) := by
  have hrest := fun start => accounted_eachIn h ["pattern"] 0 start
  have htarget : Accounted source before (sitesAt .target "pattern" 0 c.children)
      (loopTargetAt source c.children before) := by
    rw [loopTargetAt_eq]
    rcases sitesAt_cases .target "pattern" 0 c.children with
      ⟨hnone, hsites⟩ | ⟨j, d, -, hd, hfind, hsites⟩
    · rw [hnone, hsites]
      exact .nil source before
    · rw [hfind, hsites, readAs]
      by_cases hword : d.role = .identifier
      · simp only [if_pos hword]
        exact Accounts.under (.target source before d rfl rfl rfl) _
      · simp only [if_neg hword]
        exact Accounts.under ((h d (List.mem_of_getElem? hd)).targets before) _
  obtain ⟨i, cs⟩ := c
  rw [sites, convert, hr]
  exact .wrap rfl
    (.append htarget (hrest _) fun d hd s hs => apart_sitesAt_sitesIn (by simp) hd hs)

theorem accounted_gate (hr : c.role = .gate) :
    Accounted source before c.sites (convert source c before) := by
  have hparts := accounted_parts h ∅ []
  have hnone := sitesIn_of_isEmpty (c := c)
  obtain ⟨i, cs⟩ := c
  rw [sites, convert, hr]
  by_cases hempty : (Cst.mk i cs).namedChildren.isEmpty = true
  · simp only [if_pos hempty, show sitesIn [] 0 cs = [] from hnone hempty]
    exact .node rfl (.nil source before)
  · simp only [if_neg hempty]
    exact .node rfl (.inScope rfl hparts)

theorem accounted_plain (hr : c.role = .plain) :
    Accounted source before c.sites (convert source c before) := by
  have hparts := accounted_eachIn h [] 0 before
  have hnone := sitesIn_of_isEmpty (c := c)
  obtain ⟨i, cs⟩ := c
  rw [sites, convert, hr]
  by_cases hempty : (Cst.mk i cs).namedChildren.isEmpty = true
  · simp only [if_pos hempty, show sitesIn [] 0 cs = [] from hnone hempty]
    exact .node rfl (.nil source before)
  · simp only [if_neg hempty]
    exact .wrap rfl hparts

theorem accounted_group (hr : c.role = .group) :
    Accounted source before c.sites (convert source c before) := by
  have hparts := accounted_eachIn h [] 0 before
  obtain ⟨i, cs⟩ := c
  rw [sites, convert, hr]
  simp only
  revert hparts
  simp only [children]
  generalize eachIn source [] cs before = m
  rcases m with ⟨_ | ⟨n, _ | ⟨n', ns⟩⟩, after⟩ <;> intro hparts
  · exact .wrap rfl hparts
  · exact hparts
  · exact .wrap rfl hparts

theorem accounted_convert : Accounted source before c.sites (convert source c before) := by
  cases hr : c.role with
  | methodDefinition => exact accounted_method h before hr
  | block => exact accounted_block h before hr
  | assignment => exact accounted_assignment h before hr
  | loop => exact accounted_loop h before hr
  | gate => exact accounted_gate h before hr
  | plain => exact accounted_plain h before hr
  | group => exact accounted_group h before hr
  | classDefinition | moduleDefinition =>
      have hbody := accounted_parts h ∅ ["name"]
      obtain ⟨i, cs⟩ := c
      rw [sites, convert, hr]
      exact .node rfl (.inScope rfl hbody)
  | conditional =>
      have hbody := accounts_slot h before "condition" ["condition"] (by simp)
      obtain ⟨i, cs⟩ := c
      rw [sites, convert, hr]
      refine .node rfl ?_
      rw [Child.siteNodes_cons]
      exact hbody
  | call =>
      have hbody := accounts_slot h before "receiver" ["receiver", "method"] (by simp)
      have htype : c.type ≠ "identifier" := by
        rw [ne_eq, ← role_eq_identifier_iff, hr]
        simp
      obtain ⟨i, cs⟩ := c
      rw [sites, convert, hr]
      refine .node (by simp [Header.fromSite, header, htype]) ?_
      rw [Child.siteNodes_cons]
      exact hbody
  | comment =>
      obtain ⟨i, cs⟩ := c
      rw [sites, convert, hr]
      exact .nil source before
  | wrapper =>
      have hparts := accounted_eachIn h [] 0 before
      obtain ⟨i, cs⟩ := c
      rw [sites, convert, hr]
      exact hparts
  | parameterList =>
      obtain ⟨i, cs⟩ := c
      rw [sites, convert, hr, Accounted, List.flatMap_singleton]
      exact .parameters source before _
  | identifier =>
      have hword := Accounts.word source before c hr
      obtain ⟨i, cs⟩ := c
      rw [sites, convert, hr, Accounted, List.flatMap_singleton]
      exact hword
  | exceptionVariable =>
      have htargets := accounted_targetsIn h 0 before
      obtain ⟨i, cs⟩ := c
      rw [sites, convert, hr]
      exact .wrap rfl htargets

end Constructs

theorem resolves (source : List UInt8) (c : Cst) : Resolves source c := by
  induction c using Cst.induction with
  | step c ih =>
      constructor
      · exact accounted_convert ih
      · intro before
        have htargets := accounted_targetsIn ih 0 before
        obtain ⟨i, cs⟩ := c
        rw [targetSites, targetsBelow]
        exact htargets

theorem accounts_simplify (source : List UInt8) (root : Cst) :
    Accounts source ∅ root.fileSites (root.simplify source).siteNodes ∅ := by
  have hparts : Accounts source ∅ (sitesIn [] 0 root.children) _ _ :=
    accounted_parts (fun d _ => resolves source d) ∅ []
  rw [simplify, Node.siteNodes_mk]
  exact .inScope rfl hparts

/-- Whether a name is declared by one of the first so many sites of a source file, in
a scope that can be seen from a place. -/
def DeclaredBefore (source : List UInt8) (root : Cst) (k : Nat) (a : Address)
    (name : String) : Prop :=
  ∃ d ∈ root.fileSites.take k, d.Declares source name ∧ root.VisibleFrom d.address a

/-- In a source file a name is known where an earlier declaration of it is visible. -/
theorem knows_iff_declaredBefore {source : List UInt8} {root : Cst} {k : Nat} {s : Site}
    (hs : root.fileSites[k]? = some s) (name : String) :
    s.Knows source ∅ (root.fileSites.take k) name ↔
      root.DeclaredBefore source k s.address name := by
  have hvisible : ∀ d ∈ root.fileSites.take k,
      (root.VisibleFrom d.address s.address ↔ s.Sees d) := fun d hd =>
    visibleFrom_iff (List.mem_of_getElem? hs) (List.mem_of_mem_take hd)
  constructor
  · rintro (⟨hname, -⟩ | ⟨d, hd, hdeclares, hsees⟩)
    · exact absurd hname (NameSet.not_mem_empty name)
    · exact ⟨d, hd, hdeclares, (hvisible d hd).2 hsees⟩
  · rintro ⟨d, hd, hdeclares, hsees⟩
    exact .inr ⟨d, hd, hdeclares, (hvisible d hd).1 hsees⟩

/-- **Variables and calls.** The sites of a source file stand where they say, and the
nodes of the simplified tree that come from sites come from them one by one, in
pre-order. A bare word becomes a variable exactly if a site before it declares
its text where that is visible from it, and a call without receiver otherwise;
targets become assignments, and parameter lists stay what they are. -/
theorem variable_iff_declaredBefore (source : List UInt8) (root : Cst) :
    ∃ tree, root.build source = .ok (tree, []) ∧
      tree.siteNodes.length = root.fileSites.length ∧
      ∀ (k : Nat) (s : Site), root.fileSites[k]? = some s →
        root.at? s.address = some s.node ∧
        ∃ n, tree.siteNodes[k]? = some n ∧
          match s.use with
          | .word =>
            let name := s.node.text source
            s.node.type = "identifier" ∧
            (n.kind = .localVariable ↔ root.DeclaredBefore source k s.address name) ∧
            (n = .mk (s.node.header .localVariable (some name)) [.text name] ∨
              n = .mk (s.node.header .call (some name)) [.absent, .text name])
          | .target =>
            n.kind = .localAssignment ∧ n.name = some (s.node.text source) ∧
              n.line = s.node.line
          | .parameters => n = s.node.parameterListNode source
          | .noParameters => n = s.node.emptyParameterList := by
  have haccounts := accounts_simplify source root
  refine ⟨root.simplify source, build_eq source root, haccounts.length_eq, fun k s hs => ?_⟩
  refine ⟨(mem_fileSites (List.mem_of_getElem? hs)).1, ?_⟩
  obtain ⟨n, hn⟩ : ∃ n, (root.simplify source).siteNodes[k]? = some n := by
    have hk := (List.getElem?_eq_some_iff.1 hs).1
    exact ⟨_, List.getElem?_eq_getElem (haccounts.length_eq ▸ hk)⟩
  refine ⟨n, hn, ?_⟩
  have hbecomes := haccounts.becomes k s n hs hn
  rw [propext (knows_iff_declaredBefore hs _), Site.Becomes] at hbecomes
  cases huse : s.use with
  | word =>
      rw [huse] at hbecomes
      obtain ⟨hrole, isLocal, hlocal, rfl⟩ := hbecomes
      refine ⟨role_eq_identifier_iff.1 hrole, ?_, ?_⟩
      · rw [← hlocal]
        cases isLocal <;> simp [resolved, Node.kind, Node.header, header]
      · cases isLocal
        · exact .inr rfl
        · exact .inl rfl
  | target => rwa [huse] at hbecomes
  | parameters => rwa [huse] at hbecomes
  | noParameters => rwa [huse] at hbecomes

end Cst

end RubySmells
