/-!
# Opcodes

The operations of the controller's stack machine, numbered from 0 in the order in which they are
declared here, with their script spelling and the layout of the operand bytes that follow them.
-/

namespace ServoScript

/-- One unit of an image. -/
abbrev Byte := UInt8

/-- One cell of the controller's stack; also an address in an image. -/
abbrev Word := UInt16

/-- The operand bytes that follow a command byte. A run is preceded by its length in bytes. -/
inductive Operand where
  | none
  | byte
  | word
  | byteRun
  | wordRun
  deriving DecidableEq

inductive Opcode where
  | quit | literal | literal8 | literalN | literal8N | ret | jump | jumpZ | delay | getMs | depth
  | drop | dup | over | pick | swap | rot | roll | bitwiseNot | bitwiseAnd | bitwiseOr | bitwiseXor
  | shiftRight | shiftLeft | logicalNot | logicalAnd | logicalOr | negate | plus | minus | times
  | divide | mod | positive | negative | nonzero | equals | notEquals | min | max | lessThan
  | greaterThan | servo | servo8bit | speed | acceleration | getPosition | getMovingState | ledOn
  | ledOff | pwm | peek | poke | serialSendByte | call
  deriving DecidableEq

namespace Opcode

/-- Every opcode, in numeric order. -/
def all : List Opcode :=
  [.quit, .literal, .literal8, .literalN, .literal8N, .ret, .jump, .jumpZ, .delay, .getMs, .depth,
  .drop, .dup, .over, .pick, .swap, .rot, .roll, .bitwiseNot, .bitwiseAnd, .bitwiseOr, .bitwiseXor,
  .shiftRight, .shiftLeft, .logicalNot, .logicalAnd, .logicalOr, .negate, .plus, .minus, .times,
  .divide, .mod, .positive, .negative, .nonzero, .equals, .notEquals, .min, .max, .lessThan,
  .greaterThan, .servo, .servo8bit, .speed, .acceleration, .getPosition, .getMovingState, .ledOn,
  .ledOff, .pwm, .peek, .poke, .serialSendByte, .call]

/-- The byte that encodes an opcode. -/
def code (op : Opcode) : Byte := UInt8.ofNat op.ctorIdx

def ofCode? (b : Byte) : Option Opcode := all.find? (·.code == b)

theorem ofCode?_code (op : Opcode) : ofCode? op.code = some op := by
  cases op <;> rfl

theorem code_of_ofCode? {b : Byte} {op : Opcode} (h : ofCode? b = some op) : op.code = b := by
  simpa using List.find?_some h

/-- The spelling of an opcode in a script. -/
def name : Opcode → String
  | .quit => "QUIT"
  | .literal => "LITERAL"
  | .literal8 => "LITERAL8"
  | .literalN => "LITERAL_N"
  | .literal8N => "LITERAL8_N"
  | .ret => "RETURN"
  | .jump => "JUMP"
  | .jumpZ => "JUMP_Z"
  | .delay => "DELAY"
  | .getMs => "GET_MS"
  | .depth => "DEPTH"
  | .drop => "DROP"
  | .dup => "DUP"
  | .over => "OVER"
  | .pick => "PICK"
  | .swap => "SWAP"
  | .rot => "ROT"
  | .roll => "ROLL"
  | .bitwiseNot => "BITWISE_NOT"
  | .bitwiseAnd => "BITWISE_AND"
  | .bitwiseOr => "BITWISE_OR"
  | .bitwiseXor => "BITWISE_XOR"
  | .shiftRight => "SHIFT_RIGHT"
  | .shiftLeft => "SHIFT_LEFT"
  | .logicalNot => "LOGICAL_NOT"
  | .logicalAnd => "LOGICAL_AND"
  | .logicalOr => "LOGICAL_OR"
  | .negate => "NEGATE"
  | .plus => "PLUS"
  | .minus => "MINUS"
  | .times => "TIMES"
  | .divide => "DIVIDE"
  | .mod => "MOD"
  | .positive => "POSITIVE"
  | .negative => "NEGATIVE"
  | .nonzero => "NONZERO"
  | .equals => "EQUALS"
  | .notEquals => "NOT_EQUALS"
  | .min => "MIN"
  | .max => "MAX"
  | .lessThan => "LESS_THAN"
  | .greaterThan => "GREATER_THAN"
  | .servo => "SERVO"
  | .servo8bit => "SERVO_8BIT"
  | .speed => "SPEED"
  | .acceleration => "ACCELERATION"
  | .getPosition => "GET_POSITION"
  | .getMovingState => "GET_MOVING_STATE"
  | .ledOn => "LED_ON"
  | .ledOff => "LED_OFF"
  | .pwm => "PWM"
  | .peek => "PEEK"
  | .poke => "POKE"
  | .serialSendByte => "SERIAL_SEND_BYTE"
  | .call => "CALL"

/-- Finds the opcode of an upper-case spelling. -/
def ofName? (s : String) : Option Opcode := all.find? (·.name == s)

theorem ofName?_name (op : Opcode) : ofName? op.name = some op := by
  cases op <;> decide

theorem name_of_ofName? {s : String} {op : Opcode} (h : ofName? s = some op) : op.name = s := by
  simpa using List.find?_some h

def operand : Opcode → Operand
  | .literal | .jump | .jumpZ | .call => .word
  | .literal8 => .byte
  | .literalN => .wordRun
  | .literal8N => .byteRun
  | _ => .none

/-- The opcodes that push constants. Scripts write the constants instead. -/
def isLiteral : Opcode → Bool
  | .literal | .literal8 | .literalN | .literal8N => true
  | _ => false

/-- The opcodes that transfer control within the image. Scripts use labels and blocks instead. -/
def isJump : Opcode → Bool
  | .jump | .jumpZ => true
  | _ => false

end Opcode

end ServoScript
