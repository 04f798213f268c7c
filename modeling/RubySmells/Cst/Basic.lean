import RubySmells.Text.Utf8

/-!
# Concrete syntax trees

The tree that a grammar makes of a source file. Its nodes cover ranges of
bytes; some of them stand for tokens without a name of their own (keywords,
brackets), and some hang below their parent under a field such as `name` or
`parameters`.
-/

namespace RubySmells

/-- What a grammar says about one node. -/
structure Cst.Info where
  /-- The number of the node in the grammar's own listing. -/
  id : Nat := 0
  /-- The grammar's word for the construct. -/
  type : String
  /-- Whether the node is more than a keyword or a bracket. -/
  named : Bool := true
  /-- Whether the grammar put the node in where the source has none. -/
  missing : Bool := false
  /-- The field of the parent that the node fills. -/
  field : Option String := none
  startByte : Nat := 0
  endByte : Nat := 0
  /-- The line the node starts on, counted from zero. -/
  row : Nat := 0
  /-- The byte of that line it starts at, counted from zero. -/
  column : Nat := 0
  deriving DecidableEq, Repr, Inhabited

/-- A concrete syntax tree. -/
inductive Cst
  | mk (info : Cst.Info) (children : List Cst)
  deriving Repr

namespace Cst

instance : Inhabited Cst := ⟨.mk default []⟩

def info : Cst → Info
  | .mk i _ => i

def children : Cst → List Cst
  | .mk _ cs => cs

def type (c : Cst) : String := c.info.type

def named (c : Cst) : Bool := c.info.named

/-- The line the node starts on, counted from one. -/
def line (c : Cst) : Int := c.info.row + 1

/-- Whether the node fills a field of its parent. -/
def fills (field : String) (c : Cst) : Bool := c.info.field = some field

/-! ## Looking at the children -/

/-- The children that are more than keywords and brackets. -/
def namedChildren (c : Cst) : List Cst :=
  c.children.filter named

/-- The first child that fills a field. -/
def child? (c : Cst) (field : String) : Option Cst :=
  c.children.find? (fills field)

/-- All children that fill a field. -/
def childrenAt (c : Cst) (field : String) : List Cst :=
  c.children.filter (fills field)

/-- The list without the first node that fills each of the fields. -/
def dropFields (fields : List String) (cs : List Cst) : List Cst :=
  fields.foldl (fun cs field => cs.eraseP (fills field)) cs

/-- The named children, less the first child that fills each of the fields. -/
def others (c : Cst) (fields : List String) : List Cst :=
  (dropFields fields c.children).filter named

/-! ## Text -/

/-- The bytes from `start` up to `stop`, none if `stop` does not come after
`start`; both are clipped to the end. -/
def slice (bytes : List UInt8) (start stop : Nat) : List UInt8 :=
  (bytes.drop start).take (stop - start)

/-- The piece of the source that a node covers. -/
def chars (source : List UInt8) (c : Cst) : List Char :=
  Utf8.decode (slice source c.info.startByte c.info.endByte)

/-- The piece of the source that a node covers, as a name or literal. -/
def text (source : List UInt8) (c : Cst) : String :=
  String.ofList (c.chars source)

/-! ## Size -/

mutual

/-- The number of nodes in a tree. -/
def size : Cst → Nat
  | .mk _ cs => 1 + sizeAll cs

/-- The number of nodes in a list of trees. -/
def sizeAll : List Cst → Nat
  | [] => 0
  | c :: cs => c.size + sizeAll cs

end

theorem size_eq (c : Cst) : c.size = 1 + sizeAll c.children := by
  cases c with
  | mk i cs => rfl

theorem size_pos (c : Cst) : 0 < c.size := by
  rw [size_eq]
  omega

@[simp] theorem sizeAll_nil : sizeAll [] = 0 := rfl

@[simp] theorem sizeAll_cons (c : Cst) (cs : List Cst) :
    sizeAll (c :: cs) = c.size + sizeAll cs := rfl

@[simp] theorem sizeAll_append (xs ys : List Cst) :
    sizeAll (xs ++ ys) = sizeAll xs + sizeAll ys := by
  induction xs with
  | nil => simp
  | cons x xs ih => simp [ih, Nat.add_assoc]

theorem sizeAll_filter_le (p : Cst → Bool) (cs : List Cst) :
    sizeAll (cs.filter p) ≤ sizeAll cs := by
  induction cs with
  | nil => simp
  | cons c cs ih =>
      simp only [List.filter_cons]
      split <;> simp only [sizeAll_cons] <;> omega

theorem sizeAll_eraseP_le (p : Cst → Bool) (cs : List Cst) :
    sizeAll (cs.eraseP p) ≤ sizeAll cs := by
  induction cs with
  | nil => simp
  | cons c cs ih =>
      simp only [List.eraseP_cons]
      cases p c with
      | true => simp
      | false =>
          simp only [cond_false, sizeAll_cons]
          omega

/-- The first node with a property and the list without it fit into the
list. -/
theorem sizeAll_eraseP_of_find? {p : Cst → Bool} {cs : List Cst} {c : Cst}
    (h : cs.find? p = some c) : c.size + sizeAll (cs.eraseP p) = sizeAll cs := by
  induction cs with
  | nil => simp at h
  | cons d cs ih =>
      simp only [List.find?_cons] at h
      simp only [List.eraseP_cons]
      cases hd : p d with
      | true =>
          simp only [hd, Option.some.injEq] at h
          subst h
          simp
      | false =>
          simp only [hd] at h
          have := ih h
          simp only [cond_false, sizeAll_cons]
          omega

theorem sizeAll_dropFields_le (fields : List String) (cs : List Cst) :
    sizeAll (dropFields fields cs) ≤ sizeAll cs := by
  induction fields generalizing cs with
  | nil => exact Nat.le_refl _
  | cons f fields ih =>
      exact Nat.le_trans (ih (cs.eraseP (fills f))) (sizeAll_eraseP_le _ _)

theorem sizeAll_others_le (c : Cst) (fields : List String) :
    sizeAll (c.others fields) ≤ sizeAll c.children :=
  Nat.le_trans (sizeAll_filter_le _ _) (sizeAll_dropFields_le _ _)

theorem sizeAll_namedChildren_le (c : Cst) :
    sizeAll c.namedChildren ≤ sizeAll c.children :=
  sizeAll_filter_le _ _

/-- The node in a field, and the named children without the fields from this
one on, fit below the parent. -/
theorem size_child?_add_others_le {c d : Cst} {field : String}
    (fields : List String) (h : c.child? field = some d) :
    d.size + sizeAll (c.others (field :: fields)) ≤ sizeAll c.children := by
  have h1 := sizeAll_eraseP_of_find? h
  have h2 := sizeAll_filter_le named (dropFields (field :: fields) c.children)
  have h3 := sizeAll_dropFields_le fields (c.children.eraseP (fills field))
  simp only [others, dropFields, List.foldl_cons] at h2 h3 ⊢
  omega

end Cst

end RubySmells
