import CodeShape.Finder

/-!
The command line: what its words ask for, and the answer. Files are read through a function, so that
nothing here depends on a file system.
-/
namespace CodeShape

namespace Command

/-- Where a text is to be taken from. -/
inductive Origin where
  | inline (text : String)
  | file (path : String)
deriving DecidableEq, Repr

/-- Why a file cannot be read. -/
inductive Unreadable where
  | missing
  | forbidden
  | directory
  | notText
deriving DecidableEq, Repr

namespace Unreadable

def message : Unreadable → String
  | missing => "No such file or directory (os error 2)"
  | forbidden => "Permission denied (os error 13)"
  | directory => "Is a directory (os error 21)"
  | notText => "stream did not contain valid UTF-8"

end Unreadable

/-- The texts of files by their paths. -/
abbrev Files := String → Except Unreadable String

namespace Origin

/-- The text, or what to tell the user. -/
def read (files : Files) : Origin → Except String String
  | inline text => .ok text
  | file path =>
    (files path).mapError fun reason => "Cannot read " ++ path ++ "\n" ++ reason.message

/-- A path may not be empty. -/
def isPossible : Origin → Bool
  | inline _ => true
  | file path => path != ""

end Origin

/-- An option that takes no value. -/
inductive Switch where
  | wrapped
  | orderMatters
  | equivalence
  | verbose
deriving DecidableEq, Repr

namespace Switch

/-- Only the amount of logging can be asked for more than once. -/
def isRepeatable (s : Switch) : Bool := s = .verbose

end Switch

/-- One thing that the words of a command line say. -/
inductive Item where
  | code (origin : Origin)
  | pattern (origin : Origin)
  | switch (s : Switch)
deriving DecidableEq, Repr

namespace Item

/-- Where the program is, if the item says so. -/
def code? : Item → Option Origin
  | code origin => some origin
  | _ => none

/-- Where the pattern is, if the item says so. -/
def pattern? : Item → Option Origin
  | pattern origin => some origin
  | _ => none

end Item

/-- What an option's name announces. -/
inductive Setting where
  | alone (item : Item)
  | withValue (item : String → Item)

namespace Setting

/-- The options with a short name. -/
def ofLetter? : Char → Option Setting
  | 'c' => some (.withValue (.code ∘ .inline))
  | 'p' => some (.withValue (.pattern ∘ .inline))
  | 'w' => some (.alone (.switch .wrapped))
  | 'e' => some (.alone (.switch .equivalence))
  | 'v' => some (.alone (.switch .verbose))
  | _ => none

/-- The options by their long names. -/
def ofName? : String → Option Setting
  | "code" => some (.withValue (.code ∘ .inline))
  | "pattern" => some (.withValue (.pattern ∘ .inline))
  | "pattern-file" => some (.withValue (.pattern ∘ .file))
  | "wrapped" => some (.alone (.switch .wrapped))
  | "order-matters" => some (.alone (.switch .orderMatters))
  | "equivalence" => some (.alone (.switch .equivalence))
  | "verbose" => some (.alone (.switch .verbose))
  | _ => none

end Setting

/-- What a word says: some items, and an option that takes the next word for its value. -/
structure Word where
  items : List Item
  pending : Option (String → Item)

namespace Word

/-- A word of short names. What follows the name of an option with a value is the value, with or
without an equals sign. -/
def ofLetters? : List Char → Option Word
  | [] => some ⟨[], none⟩
  | c :: cs =>
    match Setting.ofLetter? c with
    | none => none
    | some (.alone item) => (ofLetters? cs).map fun w => { w with items := item :: w.items }
    | some (.withValue item) =>
      match cs with
      | [] => some ⟨[], some item⟩
      | '=' :: value => some ⟨[item (String.ofList value)], none⟩
      | value => some ⟨[item (String.ofList value)], none⟩

/-- A long name, with a value after an equals sign or none. -/
def ofLong? (cs : List Char) : Option Word :=
  match Setting.ofName? (String.ofList (cs.takeWhile (· != '='))), cs.dropWhile (· != '=') with
  | some (.alone item), [] => some ⟨[item], none⟩
  | some (.withValue item), [] => some ⟨[], some item⟩
  | some (.withValue item), _ :: value => some ⟨[item (String.ofList value)], none⟩
  | _, _ => none

/-- A word that is not a value: the name of an option, or of several. A single dash is a value. -/
def isOption (word : String) : Bool :=
  match word.toList with
  | '-' :: _ :: _ => true
  | _ => false

end Word

/-- What the words say. `pending` is the option that the first of them is the value of. Two dashes
end the options. -/
def items? (pending : Option (String → Item)) : List String → Option (List Item)
  | [] => if pending.isSome then none else some []
  | word :: rest =>
    match pending with
    | some item =>
      if Word.isOption word then none else (items? none rest).map (item word :: ·)
    | none =>
      match word.toList with
      | ['-', '-'] => some (rest.map fun path => .code (.file path))
      | '-' :: '-' :: cs => do
        let w ← Word.ofLong? cs
        (items? w.pending rest).map (w.items ++ ·)
      | '-' :: c :: cs => do
        let w ← Word.ofLetters? (c :: cs)
        (items? w.pending rest).map (w.items ++ ·)
      | _ => (items? none rest).map (.code (.file word) :: ·)

end Command

/-- What a command line asks for. -/
structure Command where
  code : Option Command.Origin
  pattern : Command.Origin
  switches : List Command.Switch
deriving Repr

namespace Command

/-- The command that the items make up. The program can be given at most once, the pattern has to be
given exactly once. -/
def ofItems? (items : List Item) : Option Command := do
  let codes := items.filterMap Item.code?
  let patterns := items.filterMap Item.pattern?
  let switches := items.filterMap fun
    | .switch s => some s
    | _ => none
  guard ((codes ++ patterns).all Origin.isPossible)
  guard (switches.all fun s => s.isRepeatable || switches.count s = 1)
  match codes, patterns with
  | [], [pattern] => some ⟨none, pattern, switches⟩
  | [code], [pattern] => some ⟨some code, pattern, switches⟩
  | _, _ => none

/-- The command that the words of a command line make up. -/
def ofWords? (words : List String) : Option Command := (items? none words).bind ofItems?

def has (c : Command) (s : Switch) : Bool := c.switches.contains s

/-- Looks for the pattern, or says why that is not possible. Of two mistakes, the one in the program
is told. -/
def outcome (files : Files) (c : Command) : Except String Outcome := do
  let code ← match c.code with
    | some origin => origin.read files
    | none => throw "Either a file or --code is required"
  let text ← c.pattern.read files
  let pattern := if c.has .wrapped then .wrapped text else .text text
  let conditions : Conditions :=
    { constraints := []
      rules := if c.has .equivalence then some .all else none
      orderMatters := c.has .orderMatters }
  let (outcome, _) ← (conditions.matchCode (.text code) pattern).mapError Misuse.render
  return outcome

/-- What a command writes, and its exit code. -/
structure Answer where
  exit : Nat
  stdout : String
  stderr : String
deriving DecidableEq, Repr

def lines (ls : List String) : String := String.join (ls.map (· ++ "\n"))

/-- The lines that tell what was found: the root, the variables in the order of their names, and the
nameless values. -/
def report (b : Bindings) : List String :=
  let vars := b.vars.mergeSort fun x y => decide (x.1 ≤ y.1)
  let anonymous :=
    if b.anonymous.isEmpty then []
    else ["_ = " ++ ", ".intercalate (b.anonymous.map Capture.render)]
  b.root.render :: vars.map (fun (name, value) => "$" ++ name ++ " = " ++ value.render) ++ anonymous

def run (files : Files) (c : Command) : Answer :=
  match c.outcome files with
  | .error message => ⟨2, "", lines [message]⟩
  | .ok (.failed diagnostic) => ⟨1, lines ("no match" :: diagnostic.toList), ""⟩
  | .ok (.matched bindings) => ⟨0, lines (report bindings), ""⟩

end Command

end CodeShape
