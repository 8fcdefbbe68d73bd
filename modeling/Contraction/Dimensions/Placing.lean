import Contraction.Dimensions.Unclassified

/-!
# Placing labels

Divides the labels of a contraction by kind and part. Labels are taken from the fastest varying one,
the last of a list, outwards. The primitive part is filled in the order C, M, K, N, and a `Pointer`
says how far in that order it has come: it only moves forward, so the labels of a kind that has been
passed go to the loops.

First come the labels of the node (`Scan.placeNode`), then those that are summed over
(`placeSummed`). The first loop ends because every step takes a label off one of the lists
(`Scan.step_pending`).
-/

namespace Contraction

/-- The kinds in the order in which the primitive part is filled, and the end of it. -/
inductive Stage where
  | c
  | m
  | k
  | n
  | loop
deriving DecidableEq, Repr, Inhabited

namespace Stage

def all : List Stage := [c, m, k, n, loop]

def rank : Stage → Nat
  | c => 0
  | m => 1
  | k => 2
  | n => 3
  | loop => 4

/-- The place of a kind in the order. -/
def ofKind : Kind → Stage
  | .c => c
  | .m => m
  | .k => k
  | .n => n

/-- The next place; the end is its own next. -/
def next : Stage → Stage
  | c => m
  | m => k
  | k => n
  | n => loop
  | loop => loop

/-- The name of a place: the primitive part is blocked. -/
def name : Stage → String
  | c => "CB"
  | m => "MB"
  | k => "KB"
  | n => "NB"
  | loop => "LOOP"

/-- The name in lower case. -/
def lowerName : Stage → String
  | c => "cb"
  | m => "mb"
  | k => "kb"
  | n => "nb"
  | loop => "loop"

end Stage

/-- What was done with the label before: nothing yet, or the part into which it went. -/
inductive Previous where
  | nothing
  | primitive
  | loop
deriving DecidableEq, Repr, Inhabited

/-- How far the primitive part has come. -/
structure Pointer where
  stage : Stage
  previous : Previous
deriving DecidableEq, Repr, Inhabited

namespace Pointer

/-- A label of the kind may still go into the primitive part. -/
def admits (p : Pointer) (kind : Kind) : Bool :=
  p.stage.rank ≤ (Stage.ofKind kind).rank

/-- A label goes into the primitive part. -/
def take (kind : Kind) : Pointer :=
  ⟨.ofKind kind, .primitive⟩

/-- A label goes to the loops. The first label that does so ends the kind that was being filled. -/
def toLoops (p : Pointer) : Pointer :=
  match p.previous with
  | .nothing => ⟨.k, .loop⟩
  | .primitive => ⟨p.stage.next, .loop⟩
  | .loop => p

/-- A label of the kind is passed without being placed. -/
def passOver (p : Pointer) (kind : Kind) : Pointer :=
  if p.admits kind then { p with stage := .ofKind kind }
  else if p.previous = .primitive then ⟨p.stage.next, .loop⟩
  else p

end Pointer

/-- Puts a label into a part of a kind. It must have a name, and a new one. -/
def Dimensions.enter (d : Dimensions) (part : Part) (kind : Kind) (label : Label) :
    Except ClassFault Dimensions :=
  match label with
  | none => .error (.undefinedLabel label)
  | some name =>
    if name.isEmpty then .error (.undefinedLabel label)
    else if d.labels.contains name then .error (.repeatedLabel name)
    else .ok (d.push part kind name)

/-- The labels still to be placed, the last of each list first, and what has been placed. -/
structure Scan where
  node : List Label
  left : List Label
  right : List Label
  pointer : Pointer
  dims : Dimensions
deriving DecidableEq, Repr

namespace Scan

/-- How many labels are left. -/
def pending (s : Scan) : Nat :=
  s.node.length + s.left.length + s.right.length

/-- A list without a label. -/
def without (label : Label) (labels : List Label) : List Label :=
  labels.filter (· != label)

/-- The kind as which a label of the node may go into the primitive part. It must be at the end of
the operands that its kind names, and not be in the other one. -/
def primitiveKind? (s : Scan) (label : Label) : Option Kind :=
  let lastOfLeft := s.left.head? == some label
  let lastOfRight := s.right.head? == some label
  if lastOfLeft && lastOfRight && s.pointer.admits .c then some .c
  else if lastOfLeft && !lastOfRight && s.pointer.admits .m && !s.right.contains label then some .m
  else if lastOfRight && !lastOfLeft && s.pointer.admits .n && !s.left.contains label then some .n
  else none

/-- A label at the end of an operand that is summed over and so stands in the way of the labels of
the node before it. The left operand comes first. -/
def blocking? (s : Scan) : Option Label :=
  match s.left, s.right with
  | l :: _, r :: _ =>
    if s.right.contains l && !s.node.contains l then some l
    else if s.left.contains r && !s.node.contains r then some r
    else none
  | _, _ => none

/-- Places a label of the node, and takes it off all lists. -/
def place (s : Scan) (part : Part) (kind : Kind) (pointer : Pointer) (label : Label)
    (rest : List Label) : Except ClassFault Scan :=
  (s.dims.enter part kind label).map fun dims =>
    { node := rest, left := without label s.left, right := without label s.right, pointer, dims }

/-- Takes a label that is summed over off the operands. -/
def unblock (s : Scan) (label : Label) : Scan :=
  { s with
    left := without label s.left, right := without label s.right, pointer := s.pointer.toLoops }

/-- Deals with the last label of the node: it goes into the primitive part if it may, else to the
loops. A label of the right operand alone waits until nothing stands in the way any more. -/
def step (s : Scan) (label : Label) (rest : List Label) : Except ClassFault Scan :=
  match s.primitiveKind? label with
  | some kind => s.place .primitive kind (.take kind) label rest
  | none =>
    if s.left.contains label then
      s.place .loop (if s.right.contains label then .c else .m) s.pointer.toLoops label rest
    else
      match s.blocking? with
      | some blocker => .ok (s.unblock blocker)
      | none =>
        if s.right.contains label then s.place .loop .n s.pointer.toLoops label rest
        else .error (.malformedAt label)

theorem length_without_le (label : Label) (labels : List Label) :
    (without label labels).length ≤ labels.length :=
  List.length_filter_le ..

theorem length_without_lt {label : Label} {labels : List Label} (h : label ∈ labels) :
    (without label labels).length < labels.length :=
  List.length_filter_lt_length_iff_exists.mpr ⟨label, h, by simp⟩

theorem place_pending {s t : Scan} {part : Part} {kind : Kind} {pointer : Pointer} {label : Label}
    {rest : List Label} (hn : s.node = label :: rest)
    (h : s.place part kind pointer label rest = .ok t) : t.pending < s.pending := by
  unfold place at h
  cases hr : s.dims.enter part kind label with
  | error e => simp [hr, Except.map] at h
  | ok d =>
    simp only [hr, Except.map, Except.ok.injEq] at h
    subst h
    have := length_without_le label s.left
    have := length_without_le label s.right
    simp only [pending, hn, List.length_cons]
    omega

theorem blocking?_mem {s : Scan} {label : Label} (h : s.blocking? = some label) :
    label ∈ s.left ∧ label ∈ s.right := by
  unfold blocking? at h
  split at h
  case h_2 => simp at h
  case h_1 l _ r _ hl hr =>
    split at h
    · simp only [Option.some.injEq] at h
      simp_all
    · split at h
      · simp only [Option.some.injEq] at h
        simp_all
      · simp at h

theorem unblock_pending {s : Scan} {label : Label} (h : s.blocking? = some label) :
    (s.unblock label).pending < s.pending := by
  have := length_without_lt (blocking?_mem h).1
  have := length_without_lt (blocking?_mem h).2
  simp only [pending, unblock]
  omega

theorem step_pending {s t : Scan} {label : Label} {rest : List Label}
    (hn : s.node = label :: rest) (h : s.step label rest = .ok t) : t.pending < s.pending := by
  unfold step at h
  split at h
  · exact place_pending hn h
  · split at h
    · exact place_pending hn h
    · split at h
      · next hb =>
        simp only [Except.ok.injEq] at h
        exact h ▸ unblock_pending hb
      · split at h
        · exact place_pending hn h
        · simp at h

/-- Places all labels of the node. -/
def placeNode (s : Scan) : Except ClassFault Dimensions :=
  match _hn : s.node with
  | [] => .ok s.dims
  | label :: rest =>
    match _h : s.step label rest with
    | .error e => .error e
    | .ok next => placeNode next
termination_by s.pending
decreasing_by exact step_pending _hn _h

end Scan

/-- Passes a label that is looked at among those that are summed over. A label that has been placed
counts as one of its kind, any other one as summed over. -/
def Pointer.look (p : Pointer) (d : Dimensions) (label : Label) : Pointer :=
  p.passOver ((d.kind? label).getD .k)

/-- The pointer at the beginning of a scan for labels that are summed over. -/
def Pointer.atStart : Pointer :=
  ⟨.c, .primitive⟩

/-- The labels of the right operand, last first, that are summed over and that the primitive part
could take as long as only the right operand is looked at. -/
def summedCandidates (d : Dimensions) (left : List Label) :
    Pointer → List Label → Except ClassFault (List Label)
  | _, [] => .ok []
  | p, label :: rest =>
    let p := p.look d label
    if (d.kind? label).isSome then summedCandidates d left p rest
    else if !left.contains label then .error .invalidContracted
    else if p.admits .k then
      (summedCandidates d left { p with previous := .primitive } rest).map (label :: ·)
    else summedCandidates d left p rest

/-- Places the labels of the left operand, last first, that are summed over. The primitive part
takes them as long as they are the candidates in turn. -/
def placeSummed (right : List Label) :
    Dimensions → Pointer → List Label → List Label → Except ClassFault Dimensions
  | d, _, _, [] => .ok d
  | d, p, candidates, label :: rest =>
    let p := p.look d label
    if (d.kind? label).isSome then placeSummed right d p candidates rest
    else if !right.contains label then .error .invalidContracted
    else if p.admits .k && candidates.head? == some label then do
      let d ← d.enter .primitive .k label
      placeSummed right d { p with previous := .primitive } candidates.tail rest
    else do
      let d ← d.enter .loop .k label
      placeSummed right d p candidates rest

/-- Places all labels of a contraction, or says why they cannot be placed. -/
def Operands.placeAll (o : Operands) : Except ClassFault Dimensions := do
  let placed ← Scan.placeNode
    { node := o.node.reverse, left := o.left.reverse, right := o.right.reverse,
      pointer := ⟨.c, .nothing⟩, dims := .empty }
  let candidates ← summedCandidates placed o.left .atStart o.right.reverse
  placeSummed o.right placed .atStart candidates o.left.reverse

/-- The dimensions of a contraction. -/
def Operands.dimensions (o : Operands) : Except Unclassified Dimensions :=
  match o.placeAll with
  | .ok dims => .ok dims
  | .error fault => .error ⟨fault, some o⟩

end Contraction
