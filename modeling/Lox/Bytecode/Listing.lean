import Lox.Number.Format
import Lox.Bytecode.Chunk

/-!
# Listings

The readable form of code.  Each instruction takes a line: its offset, its source line (a bar if
that is the line of the byte before), its name and its operand with what the operand stands for.
A byte that is no opcode is listed as such and passed over; code that ends inside an instruction
cannot be listed.  The functions declared in a chunk are listed after it.

A listing reads operands by itself, in the form in which it shows them, and knows from this form where
the instruction ends.  It does not depend on how the machine decodes an instruction.
-/

namespace Lox

namespace Chunk

/-- The columns in front of an instruction: offset and source line. -/
def locationText (c : Chunk) (offset : Nat) : Text :=
  let sameLine : Bool :=
    0 < offset && offset < c.lines.size && c.lines[offset]? == c.lines[offset - 1]?
  let lineColumn : Text :=
    if sameLine then "   |" else Text.padLeft 4 ' '.toUInt8 (Text.ofNat (c.lineAt offset).toNat)
  Text.padLeft 4 '0'.toUInt8 (Text.ofNat offset) ++ " " ++ lineColumn ++ " "

/-- A name and an operand in their columns. -/
def operandColumns (op : Opcode) (operand : Nat) : Text :=
  Text.padRight 16 op.name ++ " " ++ Text.padLeft 4 ' '.toUInt8 (Text.ofNat operand)

/-- What an operand stands for, in quotes. -/
def quoted (content : Option Text) : Text :=
  " '" ++ content.getD "<invalid>" ++ "'\n"

/-- One line per captured variable of a closure. -/
def captureText (capture : Capture) : Text :=
  "   |                     " ++ (if capture.isLocal then "local " else "upvalue ") ++
    Text.ofNat capture.index ++ "\n"

/-- The line of an opcode without an operand, and the offset of what follows it. -/
def plainLine (op : Opcode) (offset : Nat) : Text × Nat :=
  (op.name ++ "\n", offset + 1)

/-- The line of an opcode with an operand of one byte. -/
def byteLine (c : Chunk) (op : Opcode) (offset : Nat) : Except Fault (Text × Nat) :=
  (c.readByte (offset + 1)).map fun value => (operandColumns op value.toNat ++ "\n", offset + 2)

/-- The line of an opcode with an operand of two bytes and what that stands for. -/
def shortLine (c : Chunk) (op : Opcode) (content : Nat → Text) (offset : Nat) :
    Except Fault (Text × Nat) :=
  (c.readShort (offset + 1)).map fun value => (operandColumns op value ++ content value, offset + 3)

/-- The line of a jump, forward or backward by `sign`, with its target. -/
def jumpLine (c : Chunk) (op : Opcode) (sign : Int) (offset : Nat) : Except Fault (Text × Nat) :=
  (c.readShort (offset + 1)).map fun (distance : Nat) =>
    let target : Int := (offset : Int) + 3 + sign * (distance : Int)
    (operandColumns op offset ++ " -> " ++ Text.ofInt target ++ "\n", offset + 3)

/-- What the operand of a closure stands for. -/
def closureText (c : Chunk) (index : Nat) : Text :=
  match c.functions[index]? with
  | none => " <invalid>\n"
  | some p => " <fun " ++ p.name ++ ">\n" ++ (p.captures.toList.map captureText).flatten

/-- The line of an opcode found at `offset` with its operand, without the location columns, and the
offset of what follows. -/
def opcodeLine (c : Chunk) (op : Opcode) (offset : Nat) : Except Fault (Text × Nat) :=
  match op with
  | .loadConstant =>
    c.shortLine op (fun index => quoted ((c.constants.get? index).map Number.format)) offset
  | .loadString | .defineGlobal | .getGlobal | .setGlobal =>
    c.shortLine op (fun index => quoted (c.strings.get? index)) offset
  | .getLocal | .setLocal | .getUpvalue | .setUpvalue => c.shortLine op (fun _ => "\n") offset
  | .jump | .jumpIfFalse => c.jumpLine op 1 offset
  | .loop => c.jumpLine op (-1) offset
  | .call => c.byteLine op offset
  | .closure => c.shortLine op c.closureText offset
  | .loadNil | .loadTrue | .loadFalse | .pop | .add | .subtract | .multiply | .divide | .negate
  | .not | .equal | .notEqual | .less | .greater | .lessEqual | .greaterEqual | .typeof
  | .closeUpvalue | .ret | .print => .ok (plainLine op offset)

/-- The listing of whatever is at `offset`, without the location columns, and the offset of what
follows it. -/
def listAt (c : Chunk) (offset : Nat) : Except Fault (Text × Nat) :=
  match c.readByte offset with
  | .error f => .error f
  | .ok byte =>
    match Opcode.ofByte? byte with
    | none => .ok ("Unknown opcode " ++ Text.ofNat byte.toNat ++ "\n", offset + 1)
    | some op => c.opcodeLine op offset

/-- Lists at most `bound` instructions from `offset` on, after the lines of `done`.  The code's
length is bound enough, since every line moves on. -/
def listFrom (c : Chunk) : (bound offset : Nat) → (done : Array Text) → Except Fault (Array Text)
  | 0, _, done => .ok done
  | bound + 1, offset, done =>
    if offset < c.code.size then
      match c.listAt offset with
      | .error f => .error f
      | .ok (line, next) => c.listFrom bound next (done.push (c.locationText offset ++ line))
    else .ok done

end Chunk

mutual

/-- The listing of a chunk under a title, after the lines of `done`. -/
def Chunk.listOnto (c : Chunk) (title : Text) (done : Array Text) : Except Fault (Array Text) :=
  match c.listFrom c.code.size 0 (done.push ("== " ++ title ++ " ==\n")) with
  | .error f => .error f
  | .ok done => c.functions.attach.foldlM (fun done p => Prototype.listOnto p.1 done) done
termination_by sizeOf c
decreasing_by
  have mem := Array.sizeOf_lt_of_mem p.2
  cases c
  simp_all
  omega

/-- The listing of a function, if it has code. -/
def Prototype.listOnto (p : Prototype) (done : Array Text) : Except Fault (Array Text) :=
  match _code : p.chunk with
  | none => .ok done
  | some c => c.listOnto ("<fun " ++ p.name ++ ">") done
termination_by sizeOf p
decreasing_by
  cases p
  simp_all
  omega

end

/-- The listing of a chunk under a title. -/
def Chunk.listing (c : Chunk) (title : Text) : Except Fault Text :=
  (c.listOnto title #[]).map fun lines => lines.toList.flatten

end Lox
