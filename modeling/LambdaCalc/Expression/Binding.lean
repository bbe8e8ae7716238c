import LambdaCalc.Expression.Basic
import LambdaCalc.Qualifier
import LambdaCalc.Token

set_option autoImplicit false

/-! # Binding: from tokens to an expression

`Expression.ofTokens` reads a token stream from left to right as one implicit group. The names bound
at the start of a group are its parameters. A name bound later in a group opens an abstraction of
its own, which ends together with the group: `x λy.y z` is `x (λy.y z)`. Groups left open end with
the stream.

At each point every spelling met so far has a `Standing`: it is bound by a group that is still open,
it was bound by a group that has been closed, or it is free. A spelling keeps to one role: what is
free is never bound, what was bound is never free, and nothing is bound inside its own scope.

When the tree is done, keyword qualifiers are taken off the spellings (`Binding.unqualifyFrom`): a
spelling that thereby meets another one becomes its alias. -/

namespace LambdaCalc

namespace Binding

/-! ## Spellings -/

/-- What a spelling stands for. -/
inductive Standing where
  /-- A parameter of the open group at `level`. -/
  | live (level position : Nat) (copy : Int)
  /-- A parameter of a group that has been closed. -/
  | closed (copy : Int)
  /-- A free name. -/
  | constant
deriving DecidableEq, Repr

namespace Standing

/-- The standing of a spelling once the group at a level is closed. -/
def closeLevel (level : Nat) : Standing → Standing
  | .live level' position copy =>
      if level' = level then .closed copy else .live level' position copy
  | standing => standing

/-- The first copy id that no parameter of this spelling has. -/
def nextCopy : Standing → Int
  | .live _ _ copy | .closed copy => copy + 1
  | .constant => 0

end Standing

/-- The spellings met so far. The place of a spelling is its name id. The missing name of a token is
    a spelling as well, unlike every other one. -/
abbrev Spellings := OrderedTable (Option String) Standing

/-- The name id of a spelling: its place, or the next free one. -/
def Spellings.id (spellings : Spellings) (name : Option String) : Nat :=
  spellings.keys.idxOf name

/-- The spellings with the name ids and the standings they have. -/
def Spellings.known (spellings : Spellings) : OrderedTable (Option String) (Nat × Standing) :=
  { entries := spellings.entries.zipIdx.map fun ((name, standing), id) => (name, (id, standing)) }

/-! ## Open groups -/

/-- A group being read, with its elements from the last to the first. An `inlined` one was opened by
    a name bound in the middle of the group around it, and ends with that group. -/
structure Frame where
  inlined : Bool := false
  params : List Param := []
  elements : List Node := []
deriving Repr

namespace Frame

/-- Add an element at the end of a group. -/
def add (frame : Frame) (element : Node) : Frame :=
  { frame with elements := element :: frame.elements }

/-- The node of a group once it is closed. -/
def node (frame : Frame) : Node := (Node.abs frame.params frame.elements.reverse).collapse

end Frame

/-- The state of reading: the innermost open group, the groups around it from the inside out, and
    the spellings. The outermost group is the implicit one. -/
structure Reading where
  inner : Frame := {}
  outer : List Frame := []
  spellings : Spellings := {}
deriving Repr

namespace Reading

/-- The level of the innermost group; the implicit group has level one. -/
def level (reading : Reading) : Nat := reading.outer.length + 1

/-- Open a group, if there is room for one more. -/
def enter (room : Option Nat) (inlined : Bool) (reading : Reading) : Outcome Reading :=
  if room.any (· ≤ reading.level) then
    .error .nestedTooDeeply
  else
    .ok { reading with inner := { inlined }, outer := reading.inner :: reading.outer }

/-- Bind a name as the next parameter of the innermost group. -/
def bind (name : Option String) (reading : Reading) : Outcome Reading :=
  let position := reading.inner.params.length
  let become (copy : Int) : Reading :=
    { reading with
      inner.params :=
        reading.inner.params ++ [{ name := reading.spellings.id name, copy }]
      spellings := reading.spellings.put name (.live reading.level position copy) }
  match reading.spellings.find? name with
  | none => .ok (become 0)
  | some (.closed copy) => .ok (become (copy + 1))
  | some (.live ..) => .error (.aboutName .activeName name)
  | some .constant => .error (.aboutName .reservedName name)

/-- Use a name as an element of the innermost group. The first free use of a spelling makes it a
    free name. -/
def use (name : Option String) (reading : Reading) : Outcome Reading :=
  match reading.spellings.find? name with
  | some (.live level position _) =>
      let depth := (reading.level : Int) - level
      .ok { reading with inner := reading.inner.add (.bound depth position) }
  | some (.closed _) => .error (.aboutName .unavailableName name)
  | some .constant =>
      .ok { reading with inner := reading.inner.add (.free (reading.spellings.id name)) }
  | none =>
      .ok { reading with
        inner := reading.inner.add (.free (reading.spellings.id name))
        spellings := reading.spellings.put name .constant }

/-- Close the innermost group and the abstractions inlined in it. The implicit group cannot be
    closed by a token. -/
def leave (inner : Frame) (spellings : Spellings) : (outer : List Frame) → Outcome Reading
  | [] => .error (.ofKind .unmatchedParenthesis)
  | frame :: outer =>
      let level := outer.length + 2
      let spellings := spellings.mapValues (·.closeLevel level)
      let frame := frame.add inner.node
      if inner.inlined then leave frame spellings outer
      else .ok { inner := frame, outer, spellings }

/-- Close all groups, the implicit one last. -/
def finish (inner : Frame) (spellings : Spellings) : (outer : List Frame) → Node × Spellings
  | [] => (inner.node, spellings.mapValues (·.closeLevel 1))
  | frame :: outer =>
      let level := outer.length + 2
      finish (frame.add inner.node) (spellings.mapValues (·.closeLevel level)) outer

/-- Read one token. -/
def step (room : Option Nat) (reading : Reading) (token : Token) : Outcome Reading :=
  match token.kind with
  | .opening => reading.enter room false
  | .closing => leave reading.inner reading.spellings reading.outer
  | .func =>
      if reading.inner.elements.isEmpty then reading.bind token.name
      else do (← reading.enter room true).bind token.name
  | .var => reading.use token.name
  | .stray _ => .error (.ofKind .internalFailure)

end Reading

/-! ## Taking off qualifiers -/

/-- Take the qualifiers off spellings, given what is known of all spellings: a stripped spelling
    that is known already makes an alias to it, and any other takes the place of the qualified one.
    No spelling may be bound by a group that is still open. Returns the spellings as shown, and the
    aliases. The missing name has no text, which is noticed only here. -/
def unqualifyFrom (known : OrderedTable (Option String) (Nat × Standing)) (id : Nat) :
    (names : List (Option String)) → Outcome (List String × List (Nat × Nat))
  | [] => .ok ([], [])
  | none :: _ => .error (.mishap .missingName)
  | some spelling :: names =>
      match Qualifier.strip? spelling with
      | none => do
          let (shown, aliases) ← unqualifyFrom known (id + 1) names
          return (spelling :: shown, aliases)
      | some short =>
          match known.find? (some short) with
          | none => do
              let (shown, aliases) ←
                unqualifyFrom (known.put (some short) (id, .closed 1)) (id + 1) names
              return (short :: shown, aliases)
          | some (_, .live ..) => .error (.ofKind .internalFailure)
          | some (target, .closed _) | some (target, .constant) => do
              let (shown, aliases) ← unqualifyFrom known (id + 1) names
              return (spelling :: shown, (id, target) :: aliases)

/-- The name table of the spellings read. -/
def nameTable (spellings : Spellings) : Outcome NameTable := do
  let copies := spellings.entries.map (·.2.nextCopy)
  let (shown, aliases) ← unqualifyFrom spellings.known 0 spellings.keys
  NameTable.ofLists shown copies aliases

end Binding

namespace Expression

/-- Build an expression with room for so many groups inside one another, or for any number. -/
def ofTokensWithin (room : Option Nat) (tokens : List Token) : Outcome Expression :=
  if tokens.isEmpty then
    .error (.ofKind .emptyExpression)
  else do
    let reading ← tokens.foldlM (Binding.Reading.step room) {}
    let (root, spellings) := Binding.Reading.finish reading.inner reading.spellings reading.outer
    return { root, names := ← Binding.nameTable spellings }

/-- Build an expression from its tokens. -/
def ofTokens (tokens : List Token) : Outcome Expression := ofTokensWithin none tokens

end Expression

end LambdaCalc
