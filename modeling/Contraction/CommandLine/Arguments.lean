import Contraction.Text.Characters

/-!
# Arguments

Dividing the arguments of a command into its options and its words. An option begins with a dash. It
may be cut short as long as only one option begins that way, and its value may follow it or, behind
an equals sign, be part of it. Negative numbers and texts with a space are words, and so is
everything behind a double dash. The first double dash among the words of one place does not count,
and neither does one that is all of an option's value.

Asking for help ends the reading at once, as does a value that an option refuses; an option that is
not known and words that are too many or too few are found at the end.
-/

namespace Contraction.CommandLine

/-- A double dash as it is written. -/
def doubleDash : String := "--"

/-- An option: its names, and for one that takes a value which values are allowed. -/
structure OptionForm where
  names : List String
  value : Option (String → Bool) := none

/-- A place for words: a single one, or all that follow. -/
inductive Slot where
  | one
  | many
deriving DecidableEq

/-- The options and the words of a command. -/
structure CommandForm where
  options : List OptionForm
  slots : List Slot

/-- An argument, by its form. -/
inductive Argument where
  | word (text : String)
  /-- The double dash. -/
  | dashes
  /-- An option by one of its names, with a value that is part of it. -/
  | option (name : String) (value : Option String)
  /-- Something like an option that is not known. -/
  | unknown
deriving DecidableEq

/-- The parts of a text before and behind its first equals sign. -/
def splitEquals (cs : List Char) : List Char × Option (List Char) :=
  match cs.dropWhile (· != '=') with
  | [] => (cs, none)
  | _ :: value => (cs.takeWhile (· != '='), some value)

/-- A dash and digits, with a point or without one. -/
def isNegativeNumber (cs : List Char) : Bool :=
  let cs := if cs.getLast? = some '\n' then cs.dropLast else cs
  match cs with
  | '-' :: rest =>
    match rest.dropWhile Text.isDecimalDigit with
    | [] => !rest.isEmpty
    | '.' :: fraction => !fraction.isEmpty && fraction.all Text.isDecimalDigit
    | _ => false
  | _ => false

/-- The options that an argument may be short for, each with the value that is part of it. What
stands right behind an option of one letter counts as its value. -/
def shortFor (names : List String) (cs : List Char) : List Argument :=
  match cs with
  | '-' :: '-' :: _ =>
    let (front, value) := splitEquals cs
    (names.filter fun name => front.isPrefixOf name.toList).map fun name =>
      .option name (value.map String.ofList)
  | dash :: letter :: rest =>
    names.filterMap fun name =>
      if name.toList = [dash, letter] then some (.option name (some (String.ofList rest)))
      else if cs.isPrefixOf name.toList then some (.option name none)
      else none
  | _ => []

/-- An argument in front of a double dash, by its form; none if it may be short for several. -/
def Argument.ofText? (names : List String) (text : String) : Option Argument :=
  let cs := text.toList
  match cs with
  | '-' :: _ :: _ =>
    if names.contains text then some (.option text none)
    else
      let (front, value) := splitEquals cs
      let name := String.ofList front
      if value.isSome && names.contains name then some (.option name (value.map String.ofList))
      else
        match shortFor names cs with
        | [found] => some found
        | [] =>
          if isNegativeNumber cs || cs.contains ' ' then some (.word text) else some .unknown
        | _ => none
  | _ => some (.word text)

/-- The arguments by their form, or none if one of them may be short for several options. -/
def Argument.ofTexts? (names : List String) : List String → Option (List Argument)
  | [] => some []
  | text :: rest =>
    if text = doubleDash then some (.dashes :: rest.map .word)
    else do
      let first ← Argument.ofText? names text
      let others ← Argument.ofTexts? names rest
      return first :: others

/-- What reading arguments comes to. -/
inductive Reading (α : Type) where
  | done (value : α)
  | help
  | misuse

/-- What has been read: the options with the values that are left to them, the words of each slot
that is filled, and whether something has no place. -/
structure Collected where
  options : List (String × Option String) := []
  words : List (List String) := []
  extra : Bool := false

/-- The words of a run one by one. The double dash that ends the options stands with the word in
front of it, or else with the one behind it. -/
def pieces : List (Option String) → List (List String)
  | none :: some word :: rest => [doubleDash, word] :: pieces rest
  | some word :: none :: rest => [word, doubleDash] :: pieces rest
  | some word :: rest => [word] :: pieces rest
  | none :: rest => pieces rest
  | [] => []

/-- Puts words into slots in turn, and gives the words of each slot, the slots left, and whether
words are left. -/
def fill : List Slot → List (List String) → List (List String) × List Slot × Bool
  | slots, [] => ([], slots, false)
  | [], _ :: _ => ([], [], true)
  | .many :: slots, words => ([words.flatten.erase doubleDash], slots, false)
  | .one :: slots, word :: words =>
    let (filled, left, extra) := fill slots words
    (word.erase doubleDash :: filled, left, extra)

/-- Puts the words between two options into slots. A double dash alone has no place. -/
def Collected.takeRun (c : Collected) (slots : List Slot) (run : List (Option String)) :
    Collected × List Slot :=
  let words := pieces run
  if words.isEmpty then ({ c with extra := c.extra || !run.isEmpty }, slots)
  else
    let (filled, left, extra) := fill slots words
    ({ c with words := c.words ++ filled, extra := c.extra || extra }, left)

/-- The option with a name. -/
def CommandForm.option? (form : CommandForm) (name : String) : Option OptionForm :=
  form.options.find? (·.names.contains name)

/-- An option that asks for help. -/
def isHelp (name : String) : Bool :=
  name == "-h" || name == "--help"

/-- The letter that asks for help, with the same letter again in place of a value. -/
def repeatsHelp (name value : String) : Bool :=
  name == "-h" && !value.isEmpty && value.toList.all (· == 'h')

/-- Reads arguments. The words since the last option are kept in a run, where a double dash is no
text. -/
def CommandForm.collect (form : CommandForm) :
    Collected → List Slot → List (Option String) → List Argument → Reading Collected
  | c, slots, run, [] =>
    let (c, slots) := c.takeRun slots run
    if c.extra || !slots.isEmpty then .misuse else .done c
  | c, slots, run, .word text :: rest => form.collect c slots (run ++ [some text]) rest
  | c, slots, run, .dashes :: rest => form.collect c slots (run ++ [none]) rest
  | c, slots, run, .unknown :: rest =>
    let (c, slots) := c.takeRun slots run
    form.collect { c with extra := true } slots [] rest
  | c, slots, run, .option name value :: rest =>
    let (c, slots) := c.takeRun slots run
    let add (value : Option String) : Collected :=
      { c with options := c.options ++ [(name, value)] }
    match (form.option? name).bind OptionForm.value, value with
    | none, none => if isHelp name then .help else form.collect (add none) slots [] rest
    | none, some text => if repeatsHelp name text then .help else .misuse
    | some allows, some text =>
      if text = doubleDash then form.collect (add none) slots [] rest
      else if allows text then form.collect (add (some text)) slots [] rest
      else .misuse
    | some allows, none =>
      match rest with
      | .word text :: rest =>
        if allows text then form.collect (add (some text)) slots [] rest else .misuse
      | _ => .misuse

/-- The names of all options. -/
def CommandForm.names (form : CommandForm) : List String :=
  form.options.flatMap OptionForm.names

/-- Reads the arguments of a command. -/
def CommandForm.read (form : CommandForm) (texts : List String) : Reading Collected :=
  match Argument.ofTexts? form.names texts with
  | none => .misuse
  | some arguments => form.collect {} form.slots [] arguments

namespace Collected

/-- What the last use of an option leaves it as its value. -/
def value? (c : Collected) (name : String) : Option (Option String) :=
  (c.options.reverse.find? fun option => name == option.1).map (·.2)

def has (c : Collected) (name : String) : Bool :=
  c.options.any (·.1 == name)

/-- All words of a slot. -/
def wordsOf (c : Collected) (slot : Nat) : List String :=
  c.words[slot]?.getD []

/-- The word of a slot, unless it was a double dash that does not count. -/
def word? (c : Collected) (slot : Nat) : Option String :=
  (c.wordsOf slot).head?

end Collected

end Contraction.CommandLine
