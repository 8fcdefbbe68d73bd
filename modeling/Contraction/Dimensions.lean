import Contraction.Datum
import Contraction.Text.Characters

/-!
# Dimensions of a contraction

The labels of a contraction `node = left x right` are of four kinds: in all three tensors (C), in
the node and the left operand (M), in the node and the right operand (N), or in both operands but
not in the node (K), which are the ones summed over. The labels of each kind are divided into a
primitive part, which one call of a blocked kernel covers, and a loop part around it.
-/

namespace Contraction

/-- The kinds of dimensions, in the order in which they are listed. -/
inductive Kind where
  | c
  | m
  | n
  | k
deriving DecidableEq, Repr, Inhabited

namespace Kind

def all : List Kind := [c, m, n, k]

/-- The letter of a kind. -/
def letter : Kind → String
  | c => "c"
  | m => "m"
  | n => "n"
  | k => "k"

/-- The letter of a kind as a heading. -/
def heading : Kind → String
  | c => "C"
  | m => "M"
  | n => "N"
  | k => "K"

/-- The kind with a letter, in upper or lower case. -/
def ofLetter? (text : String) : Option Kind :=
  all.find? fun kind => kind.letter == Text.lower text

end Kind

/-- The two parts of a kind. -/
inductive Part where
  | primitive
  | loop
deriving DecidableEq, Repr, Inhabited

/-- A list of labels for each kind. -/
structure Buckets where
  c : List String := []
  m : List String := []
  n : List String := []
  k : List String := []
deriving DecidableEq, Repr, Inhabited

namespace Buckets

def get (b : Buckets) : Kind → List String
  | .c => b.c
  | .m => b.m
  | .n => b.n
  | .k => b.k

/-- Puts a label in front of those of a kind. -/
def push (b : Buckets) (kind : Kind) (label : String) : Buckets :=
  match kind with
  | .c => { b with c := label :: b.c }
  | .m => { b with m := label :: b.m }
  | .n => { b with n := label :: b.n }
  | .k => { b with k := label :: b.k }

def labels (b : Buckets) : List String :=
  b.c ++ b.m ++ b.n ++ b.k

theorem mem_labels {b : Buckets} {label : String} :
    label ∈ b.labels ↔ ∃ kind, label ∈ b.get kind := by
  constructor
  · intro h
    simp only [labels, List.mem_append] at h
    rcases h with ((h | h) | h) | h
    · exact ⟨.c, h⟩
    · exact ⟨.m, h⟩
    · exact ⟨.n, h⟩
    · exact ⟨.k, h⟩
  · rintro ⟨kind, h⟩
    cases kind <;> simp_all [labels, get]

theorem get_push (b : Buckets) (kind other : Kind) (label : String) :
    (b.push kind label).get other =
      if kind = other then label :: b.get other else b.get other := by
  cases kind <;> cases other <;> simp [push, get]

end Buckets

/-- The labels of a contraction, divided by kind and part. -/
structure Dimensions where
  primitive : Buckets := {}
  loop : Buckets := {}
deriving DecidableEq, Repr, Inhabited

namespace Dimensions

def empty : Dimensions := {}

def bucket (d : Dimensions) : Part → Kind → List String
  | .primitive, kind => d.primitive.get kind
  | .loop, kind => d.loop.get kind

/-- Puts a label in front of those of a part of a kind. -/
def push (d : Dimensions) (part : Part) (kind : Kind) (label : String) : Dimensions :=
  match part with
  | .primitive => { d with primitive := d.primitive.push kind label }
  | .loop => { d with loop := d.loop.push kind label }

/-- The labels of a kind: the primitive ones, then those of the loops. -/
def ofKind (d : Dimensions) (kind : Kind) : List String :=
  d.primitive.get kind ++ d.loop.get kind

/-- The first kind that has a label. -/
def kind? (d : Dimensions) (label : Label) : Option Kind :=
  label.bind fun name => Kind.all.find? fun kind => (d.ofKind kind).contains name

/-- All labels: the primitive ones, then those of the loops, each kind by kind. -/
def labels (d : Dimensions) : List String :=
  d.primitive.labels ++ d.loop.labels

def isEmpty (d : Dimensions) : Bool :=
  d.labels.isEmpty

theorem mem_labels {d : Dimensions} {label : String} :
    label ∈ d.labels ↔ ∃ kind, label ∈ d.ofKind kind := by
  simp only [labels, ofKind, List.mem_append, Buckets.mem_labels, exists_or]

end Dimensions

end Contraction
