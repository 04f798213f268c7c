import Mathlib.Logic.Relation
import RubySmells.Proofs.Interchange

/-!
# Parentheses

Parentheses around one construct leave no trace in the simplified tree.

* **in place** — a construct in any number of parentheses that hold nothing else
  but comments becomes what the construct becomes (`Cst.Parenthesizes.exists_convert`);
* **all around** — parentheses can be interchanged with what is in them
  (`Cst.Parenthesizes.interchangeable`), so they may be put in and taken out wherever
  a construct is converted (`Cst.simplify_eq_of_eqvGen`);
* **several parts** — parentheses around nothing or around several parts stay, as
  one node over what the parts become (`Cst.convert_group_of_length_ne`).
-/

namespace RubySmells

namespace Cst

variable {source : List UInt8}

/-! ## In place -/

/-- Whether a node stands in parentheses that hold nothing but it, and perhaps other
parentheses and comments. The field that the node fills there does not matter. -/
inductive Parenthesizes (d : Cst) : Cst → Prop
  | once {p : Cst} (field : Option String) (htype : p.type = "parenthesized_statements")
      (hwrapper : d.role ≠ .wrapper)
      (honly : p.children.filter (fun q => q.named && q.role ≠ .comment) = [d.inField field]) :
      Parenthesizes d p
  | again {p q : Cst} (htype : p.type = "parenthesized_statements")
      (honly : p.children.filter (fun q => q.named && q.role ≠ .comment) = [q]) :
      Parenthesizes d q → Parenthesizes d p

theorem role_of_parenthesized {p : Cst} (h : p.type = "parenthesized_statements") :
    p.role = .group := by
  rw [role, h]
  rfl

/-- Parentheses leave no trace: what is in them is one node, and it takes their place. -/
theorem Parenthesizes.exists_convert (source : List UInt8) {d p : Cst} (h : d.Parenthesizes p)
    (locals : NameSet) :
    ∃ n, (convert source d locals).1 = [n] ∧
      convert source p locals = convert source d locals := by
  induction h with
  | @once p field htype hwrapper honly =>
      have hcomment : d.role ≠ .comment := by
        have hmem : d.inField field ∈ p.children.filter fun q => q.named && q.role ≠ .comment :=
          honly ▸ List.mem_singleton_self _
        exact of_decide_eq_true (Bool.and_eq_true_iff.1 (List.mem_filter.1 hmem).2).2
      obtain ⟨n, hn⟩ := exists_convert_singleton source locals hcomment hwrapper
      rw [← convert_inField source d field] at hn
      have hgroup := convert_group_of_filter source locals (role_of_parenthesized htype) honly hn
      rw [convert_inField] at hn hgroup
      exact ⟨n, hn, hgroup⟩
  | again htype honly _ ih =>
      obtain ⟨n, hn, hconvert⟩ := ih
      rw [← hconvert] at hn ⊢
      exact ⟨n, hn, convert_group_of_filter source locals (role_of_parenthesized htype) honly hn⟩

/-! ## All around -/

theorem Parenthesizes.role_eq {d p : Cst} (h : d.Parenthesizes p) : p.role = .group := by
  cases h with
  | once _ htype => exact role_of_parenthesized htype
  | again htype => exact role_of_parenthesized htype

/-- A node and the same node in parentheses, which take over its field. -/
theorem Parenthesizes.interchangeable {d p : Cst} (h : d.Parenthesizes p)
    (hnamed : p.named = d.named) : Interchangeable source d (p.inField d.info.field) := by
  refine ⟨rfl, hnamed, .inr h.role_eq, ?_, ?_⟩
  · intro locals
    obtain ⟨n, -, hconvert⟩ := h.exists_convert source locals
    rw [convert_inField, hconvert]
  · intro locals
    obtain ⟨n, hn, -⟩ := h.exists_convert source locals
    rw [hn]
    rfl

/-- Whether one tree is another with parentheses around a named node that is converted;
they take over its field. -/
def Bracketed (root root' : Cst) : Prop :=
  ∃ (a : Address) (d p : Cst), root.at? a = some d ∧ d.named = true ∧ p.named = true ∧
    root.ConvertedAt .file a ∧ d.Parenthesizes p ∧
      root' = root.replaceAt a (p.inField d.info.field)

theorem Bracketed.simplify_eq {root root' : Cst} (h : root.Bracketed root') :
    root'.simplify source = root.simplify source := by
  obtain ⟨a, d, p, hd, hnamed, hnamed', hplace, hp, rfl⟩ := h
  exact simplify_replaceAt hd hplace (hp.interchangeable (hnamed'.trans hnamed.symm))

/-- Any number of parentheses, put in and taken out. -/
theorem simplify_eq_of_eqvGen {root root' : Cst}
    (h : Relation.EqvGen Bracketed root root') :
    root'.simplify source = root.simplify source := by
  induction h with
  | rel _ _ h => exact h.simplify_eq
  | refl _ => rfl
  | symm _ _ _ ih => exact ih.symm
  | trans _ _ _ _ _ ih₁ ih₂ => exact ih₂.trans ih₁

/-! ## Several parts -/

/-- A group of nothing or of several nodes is one node over them. -/
theorem convert_group_of_length_ne {p : Cst} (htype : p.type = "parenthesized_statements")
    {locals : NameSet} (h : (eachIn source [] p.children locals).1.length ≠ 1) :
    convert source p locals =
      Made.wrap (eachIn source [] p.children locals) (p.header .other none) := by
  rw [convert_group source locals (role_of_parenthesized htype)]
  revert h
  obtain ⟨ns, after⟩ := eachIn source [] p.children locals
  intro h
  rcases ns with _ | ⟨n, _ | ⟨n', ns⟩⟩
  · rfl
  · exact absurd rfl h
  · rfl

/-- A condition that becomes one node is the test. -/
theorem exists_convert_conditional {c p : Cst} (hr : c.role = .conditional)
    (hp : c.child? "condition" = some p) {locals : NameSet} {t : Node}
    (ht : (convert source p locals).1 = [t]) :
    ∃ n after, convert source c locals = ([n], after) ∧ n.kind = .conditional ∧
      n.test? = some t := by
  refine ⟨_, _, convert_conditional source hr locals, rfl, ?_⟩
  rw [filling, hp]
  simp only [ht]
  rfl

theorem takes_namedChildren (source : List UInt8) (c : Cst) (locals : NameSet)
    (below : Scopes) :
    let parts := eachIn source [] c.children locals
    Machine.Takes source (each c.namedChildren) (locals :: below) (parts.1.map .node)
      (parts.2 :: below) :=
  Machine.takes_of_performAll (makes_others (fun d _ => agrees source d) locals [] below)

end Cst

open Cst

/-- **Parentheses.** A node in any number of parentheses that hold nothing else but
comments becomes the one node that it becomes without them, and leaves the same
scopes open. So parentheses may be put around any named node that is converted,
and taken away again, any number of times and in any number of places, and the
file is simplified to the same tree; the places in question are those of the nodes
that the machine is asked to convert. A bare word that is assigned to is none of
them: in parentheses it would be an expression.

Parentheses around nothing or around several parts become one node over what their
parts become, in order. As the test of a conditional, perhaps in further
parentheses, that is neither a local variable nor a call. -/
theorem Source.parentheses_transparent (source : List UInt8) :
    (∀ (d p : Cst), d.Parenthesizes p → ∀ (locals : NameSet) (below : Scopes), ∃ n after,
      Machine.Takes source [.convert d] (locals :: below) [.node n] (after :: below) ∧
      Machine.Takes source [.convert p] (locals :: below) [.node n] (after :: below)) ∧
    (∀ root root' : Cst, Relation.EqvGen Bracketed root root' → ∀ path,
      Source.parse (.constant root') path source = Source.parse (.constant root) path source) ∧
    (∀ root e : Cst, e ∈ Machine.requests source ⟨root.programSteps, [], [], []⟩ ↔
      ∃ a, root.ConvertedAt .file a ∧ root.at? a = some e) ∧
    ∀ p : Cst, p.type = "parenthesized_statements" → ∀ (locals : NameSet) (below : Scopes),
      ∃ (parts : List Node) (after : NameSet),
        Machine.Takes source (each p.namedChildren) (locals :: below) (parts.map .node)
          (after :: below) ∧
        (parts.length ≠ 1 →
          let other := Node.mk (p.header .other none) (parts.map .node)
          Machine.Takes source [.convert p] (locals :: below) [.node other] (after :: below) ∧
          ∀ c q : Cst, c.role = .conditional → c.child? "condition" = some q →
            q = p ∨ p.Parenthesizes q →
              ∃ n after', Machine.Takes source [.convert c] (locals :: below) [.node n]
                  (after' :: below) ∧ n.kind = .conditional ∧ n.test? = some other ∧
                other.kind ≠ .localVariable ∧ other.kind ≠ .call) := by
  refine ⟨?_, ?_, ?_, ?_⟩
  · intro d p h locals below
    obtain ⟨n, hn, hconvert⟩ := h.exists_convert source locals
    have hd := takes_convert source d locals below
    have hp := takes_convert source p locals below
    rw [hconvert] at hp
    rw [Made.children, hn] at hd hp
    exact ⟨n, _, hd, hp⟩
  · intro root root' h path
    rw [Source.parse_eq rfl, Source.parse_eq rfl]
    exact congrArg Except.ok (simplify_eq_of_eqvGen h)
  · exact fun root e => mem_requests_iff source
  · intro p htype locals below
    refine ⟨_, _, takes_namedChildren source p locals below, fun hlength => ?_⟩
    have hgroup := convert_group_of_length_ne htype hlength
    have hp := takes_convert source p locals below
    rw [hgroup] at hp
    refine ⟨hp, fun c q hr hc hq => ?_⟩
    have hconvert : convert source q locals = convert source p locals := by
      rcases hq with rfl | hq
      · rfl
      · obtain ⟨n, -, hconvert⟩ := hq.exists_convert source locals
        exact hconvert
    obtain ⟨n, after', hconditional, hkind, htest⟩ :=
      exists_convert_conditional hr hc (congrArg Prod.fst (hconvert.trans hgroup))
    have htakes := takes_convert source c locals below
    rw [hconditional] at htakes
    have hother : ∀ kind : Kind, kind ≠ .other → (p.header .other none).kind ≠ kind :=
      fun kind hne => hne.symm
    exact ⟨n, after', htakes, hkind, htest, hother _ (by decide), hother _ (by decide)⟩

/-- The word `flag` in a field. -/
def Cst.flagWord (field : Option String) : Cst :=
  .mk { type := "identifier", field := field, startByte := 5, endByte := 9 } []

/-- The tree of `if flag`. -/
def Cst.flagTest : Cst :=
  .mk { type := "program" } [.mk { type := "if" } [.flagWord "condition"]]

/-- Two pairs of parentheses around the word, with a comment between them. -/
def Cst.flagInParentheses : Cst :=
  .mk { type := "parenthesized_statements" }
    [.mk { type := "(", named := false } [],
     .mk { type := "parenthesized_statements" } [.flagWord none],
     .mk { type := "comment" } [],
     .mk { type := ")", named := false } []]

def Source.flagInParentheses : List UInt8 := "if ((flag) # set\n)\nend\n".toUTF8.toList

theorem Source.parentheses_transparent_flag :
    Source.parse (.constant (flagTest.replaceAt [0, 0] (.inField .flagInParentheses "condition")))
        "flag.rb" Source.flagInParentheses =
      Source.parse (.constant flagTest) "flag.rb" Source.flagInParentheses := by
  have hplace : flagTest.ConvertedAt .file [0, 0] := ⟨_, _, rfl, rfl, _, _, rfl, rfl, rfl⟩
  have hwrapped : (flagWord "condition").Parenthesizes .flagInParentheses :=
    .again rfl rfl (.once none rfl (by decide) rfl)
  have hbracketed : flagTest.Bracketed
      (flagTest.replaceAt [0, 0] (.inField .flagInParentheses "condition")) :=
    ⟨_, _, _, rfl, rfl, rfl, hplace, hwrapped, rfl⟩
  exact (Source.parentheses_transparent Source.flagInParentheses).2.1 _ _
    (.rel _ _ hbracketed) "flag.rb"

end RubySmells
