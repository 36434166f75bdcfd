import RadiantCore.CBlake3
import RadiantCore.CK12
import RadiantCore.ScriptNum
import RadiantCore.Transaction

/-!
# The opcodes that compute on the stack

The cases of the switch of `EvalScript` that read and write the stack of byte strings and
nothing else : constants, stack manipulation, bit strings, numbers, hashes and byte strings.
A stack is a list with its top first. Where the source first checks the size of the stack,
the definitions match on the elements it needs.

On a failure the source leaves the stack as it is at that point, which no caller reads.
-/

namespace RadiantCore

open Opcode CScriptNum

/-- `valtype`, an element of the stack. -/
abbrev Valtype := List UInt8

/-- The stack, its top first. -/
abbrev Stack := List Valtype

/-- `MAX_SCRIPT_ELEMENT_SIZE`. -/
def maxScriptElementSize : ℕ := 32000000

/-- `vchTrue` and `vchFalse`. -/
def vchOfBool (b : Bool) : Valtype := if b then [1] else []

/-- `CastToBool` : not zero, and not the negative zero. -/
def castToBool : Valtype → Bool
  | [] => false
  | [b] => b ≠ 0 ∧ b ≠ 0x80
  | b :: vch => b ≠ 0 || castToBool vch

/-- `return set_error(serror, e)`. -/
def scriptError {α : Type} (e : ScriptError) : Except ScriptFailure α := .error (.error e)

/-- The failure of an opcode that finds too few elements. -/
def invalidStackOperation {α : Type} : Except ScriptFailure α :=
  scriptError .INVALID_STACK_OPERATION

/-- `maxIntegerSize` of `EvalScript`. -/
def maxIntegerSize (flags : UInt32) : ℕ := if hasFlag flags .SCRIPT_64_BIT_INTEGERS then 8 else 4

/-- `CScriptNum(vch, fRequireMinimal, maxIntegerSize)`. -/
def scriptNum (flags : UInt32) (vch : Valtype) : Except ScriptFailure ℤ :=
  fromBytes vch (hasFlag flags .SCRIPT_VERIFY_MINIMALDATA) (maxIntegerSize flags)

namespace StackOp

/-! ## Stack manipulation -/

/-- The opcodes from `OP_2DROP` to `OP_TUCK` that move elements, without those that read a
number. -/
def shuffle (opcode : Opcode) (stack : Stack) : Except ScriptFailure Stack :=
  match opcode, stack with
  | OP_2DROP, _ :: _ :: s => .ok s
  | OP_2DUP, x2 :: x1 :: s => .ok (x2 :: x1 :: x2 :: x1 :: s)
  | OP_3DUP, x3 :: x2 :: x1 :: s => .ok (x3 :: x2 :: x1 :: x3 :: x2 :: x1 :: s)
  | OP_2OVER, x4 :: x3 :: x2 :: x1 :: s => .ok (x2 :: x1 :: x4 :: x3 :: x2 :: x1 :: s)
  | OP_2ROT, x6 :: x5 :: x4 :: x3 :: x2 :: x1 :: s =>
    .ok (x2 :: x1 :: x6 :: x5 :: x4 :: x3 :: s)
  | OP_2SWAP, x4 :: x3 :: x2 :: x1 :: s => .ok (x2 :: x1 :: x4 :: x3 :: s)
  | OP_IFDUP, x :: s => .ok (if castToBool x then x :: x :: s else x :: s)
  | OP_DROP, _ :: s => .ok s
  | OP_DUP, x :: s => .ok (x :: x :: s)
  | OP_NIP, x2 :: _ :: s => .ok (x2 :: s)
  | OP_OVER, x2 :: x1 :: s => .ok (x1 :: x2 :: x1 :: s)
  | OP_ROT, x3 :: x2 :: x1 :: s => .ok (x1 :: x3 :: x2 :: s)
  | OP_SWAP, x2 :: x1 :: s => .ok (x1 :: x2 :: s)
  | OP_TUCK, x2 :: x1 :: s => .ok (x2 :: x1 :: x2 :: s)
  | _, _ => invalidStackOperation

/-- `OP_PICK` and `OP_ROLL`, which also removes the element. -/
def pickOrRoll (flags : UInt32) (opcode : Opcode) : Stack → Except ScriptFailure Stack
  | x :: x' :: s => do
    let n ← scriptNum flags x
    let stack := x' :: s
    if n < 0 then invalidStackOperation
    else match stack[n.toNat]? with
      | none => invalidStackOperation
      | some vch => return vch :: if opcode = OP_ROLL then stack.eraseIdx n.toNat else stack
  | _ => invalidStackOperation

/-- `OP_VERIFY`. -/
def verify : Stack → Except ScriptFailure Stack
  | x :: s => if castToBool x then .ok s else scriptError .VERIFY
  | [] => invalidStackOperation

/-- `OP_SIZE`. -/
def size : Stack → Except ScriptFailure Stack
  | x :: s => .ok (serialize x.length :: x :: s)
  | [] => invalidStackOperation

/-! ## Bit strings -/

/-- `OP_AND`, `OP_OR` and `OP_XOR`, with the operation on bytes. -/
def bitwise (f : UInt8 → UInt8 → UInt8) : Stack → Except ScriptFailure Stack
  | x2 :: x1 :: s =>
    if x1.length ≠ x2.length then scriptError .INVALID_OPERAND_SIZE
    else .ok (List.zipWith f x1 x2 :: s)
  | _ => invalidStackOperation

/-- `OP_INVERT`. -/
def invert : Stack → Except ScriptFailure Stack
  | x :: s => .ok (x.map (fun b => ~~~b) :: s)
  | [] => invalidStackOperation

/-- `make_rshift_mask`. -/
def makeRShiftMask (n : ℕ) : UInt8 := [0xff, 0xfe, 0xfc, 0xf8, 0xf0, 0xe0, 0xc0, 0x80].getD n 0

/-- `make_lshift_mask`. -/
def makeLShiftMask (n : ℕ) : UInt8 := [0xff, 0x7f, 0x3f, 0x1f, 0x0f, 0x07, 0x03, 0x01].getD n 0

/-- `RShift` : what its loop leaves in the byte `k`, the high bits of one byte and the carry
of the byte before that. -/
def rShift (x : Valtype) (n : ℕ) : Valtype :=
  let bit_shift := n % 8
  let byte_shift := n / 8
  let mask := makeRShiftMask bit_shift
  (List.range x.length).map fun k =>
    (if byte_shift ≤ k then
      (x.getD (k - byte_shift) 0 &&& mask) >>> UInt8.ofNat bit_shift else 0) |||
    (if byte_shift + 1 ≤ k then
      (x.getD (k - 1 - byte_shift) 0 &&& ~~~mask) <<< UInt8.ofNat (8 - bit_shift) else 0)

/-- `LShift` : what its loop leaves in the byte `k`, the low bits of one byte and the carry
of the byte after that. -/
def lShift (x : Valtype) (n : ℕ) : Valtype :=
  let bit_shift := n % 8
  let byte_shift := n / 8
  let mask := makeLShiftMask bit_shift
  (List.range x.length).map fun k =>
    (if k + byte_shift < x.length then
      (x.getD (k + byte_shift) 0 &&& mask) <<< UInt8.ofNat bit_shift else 0) |||
    (if k + 1 + byte_shift < x.length then
      (x.getD (k + 1 + byte_shift) 0 &&& ~~~mask) >>> UInt8.ofNat (8 - bit_shift) else 0)

/-- `OP_LSHIFT` and `OP_RSHIFT`. -/
def shift (flags : UInt32) (f : Valtype → ℕ → Valtype) : Stack → Except ScriptFailure Stack
  | x2 :: x1 :: s => do
    let n ← scriptNum flags x2
    require (0 ≤ n ∧ n ≤ 8 * x1.length) (.error .INVALID_NUMBER_RANGE)
    return f x1 n.toNat :: s
  | _ => invalidStackOperation

/-- `OP_EQUAL`, and `OP_EQUALVERIFY` when `fVerify`. -/
def equal (fVerify : Bool) : Stack → Except ScriptFailure Stack
  | x2 :: x1 :: s =>
    if ¬ fVerify then .ok (vchOfBool (x1 = x2) :: s)
    else if x1 = x2 then .ok s
    else scriptError .EQUALVERIFY
  | _ => invalidStackOperation

/-! ## Numbers -/

/-- A result that has to be a number. -/
def inRange (res : Option ℤ) : Except ScriptFailure ℤ :=
  match res with
  | some bn => .ok bn
  | none => scriptError .INVALID_NUMBER_RANGE_64_BIT

/-- The number of a condition. -/
def ofBool (b : Bool) : ℤ := if b then 1 else 0

/-- The inner switch of the opcodes `OP_1ADD` to `OP_0NOTEQUAL`. -/
def unaryNumber (opcode : Opcode) (bn : ℤ) : Except ScriptFailure ℤ :=
  match opcode with
  | OP_1ADD => inRange (safeAdd bn 1)
  | OP_1SUB => inRange (safeSub bn 1)
  | OP_2MUL => inRange (safeMul bn 2)
  | OP_2DIV => .ok (bn.tdiv 2)
  | OP_NEGATE => .ok (neg bn)
  | OP_ABS => .ok (if bn < 0 then neg bn else bn)
  | OP_NOT => .ok (ofBool (bn = 0))
  | OP_0NOTEQUAL => .ok (ofBool (bn ≠ 0))
  | _ => .error (.abort "invalid opcode")

/-- The opcodes `OP_1ADD` to `OP_0NOTEQUAL`. -/
def unaryNumeric (flags : UInt32) (opcode : Opcode) : Stack → Except ScriptFailure Stack
  | x :: s => do
    let bn ← scriptNum flags x
    let res ← unaryNumber opcode bn
    return serialize res :: s
  | [] => invalidStackOperation

/-- The inner switch of the opcodes `OP_ADD` to `OP_MAX`. -/
def binaryNumber (opcode : Opcode) (bn1 bn2 : ℤ) : Except ScriptFailure ℤ :=
  match opcode with
  | OP_ADD => inRange (safeAdd bn1 bn2)
  | OP_SUB => inRange (safeSub bn1 bn2)
  | OP_MUL => inRange (safeMul bn1 bn2)
  | OP_DIV => if bn2 = 0 then scriptError .DIV_BY_ZERO else .ok (div bn1 bn2)
  | OP_MOD => if bn2 = 0 then scriptError .MOD_BY_ZERO else .ok (mod bn1 bn2)
  | OP_BOOLAND => .ok (ofBool (bn1 ≠ 0 ∧ bn2 ≠ 0))
  | OP_BOOLOR => .ok (ofBool (bn1 ≠ 0 ∨ bn2 ≠ 0))
  | OP_NUMEQUAL => .ok (ofBool (bn1 = bn2))
  | OP_NUMEQUALVERIFY => .ok (ofBool (bn1 = bn2))
  | OP_NUMNOTEQUAL => .ok (ofBool (bn1 ≠ bn2))
  | OP_LESSTHAN => .ok (ofBool (bn1 < bn2))
  | OP_GREATERTHAN => .ok (ofBool (bn1 > bn2))
  | OP_LESSTHANOREQUAL => .ok (ofBool (bn1 ≤ bn2))
  | OP_GREATERTHANOREQUAL => .ok (ofBool (bn1 ≥ bn2))
  | OP_MIN => .ok (if bn1 < bn2 then bn1 else bn2)
  | OP_MAX => .ok (if bn1 > bn2 then bn1 else bn2)
  | _ => .error (.abort "invalid opcode")

/-- The opcodes `OP_ADD` to `OP_MAX`. -/
def binaryNumeric (flags : UInt32) (opcode : Opcode) : Stack → Except ScriptFailure Stack
  | x2 :: x1 :: s => do
    let bn1 ← scriptNum flags x1
    let bn2 ← scriptNum flags x2
    let res ← binaryNumber opcode bn1 bn2
    let vch := serialize res
    if opcode = OP_NUMEQUALVERIFY then
      if castToBool vch then return s else scriptError .NUMEQUALVERIFY
    else return vch :: s
  | _ => invalidStackOperation

/-- `OP_WITHIN`. -/
def within (flags : UInt32) : Stack → Except ScriptFailure Stack
  | x3 :: x2 :: x1 :: s => do
    let bn1 ← scriptNum flags x1
    let bn2 ← scriptNum flags x2
    let bn3 ← scriptNum flags x3
    return vchOfBool (bn2 ≤ bn1 ∧ bn1 < bn3) :: s
  | _ => invalidStackOperation

/-! ## Hashes -/

section Hashes

variable [Crypto]

/-- The digests of the opcodes `OP_RIPEMD160` to `OP_K12`. The implementation of BLAKE3 takes
a single chunk and fails on a longer element. -/
def digest (opcode : Opcode) (vch : Valtype) : Except ScriptFailure Valtype :=
  match opcode with
  | OP_RIPEMD160 => .ok (Crypto.ripemd160 vch).data
  | OP_SHA1 => .ok (Crypto.sha1 vch).data
  | OP_SHA256 => .ok (Crypto.sha256 vch).data
  | OP_HASH160 => .ok (hash160 vch).data
  | OP_HASH256 => .ok (hash256 vch).data
  | OP_SHA512_256 => .ok (Crypto.sha512_256 vch).data
  | OP_HASH512_256 => .ok (Crypto.sha512_256 (Crypto.sha512_256 vch).data).data
  | OP_BLAKE3 =>
    match (CBlake3.reset.write vch).finalize with
    | some vchHash => .ok vchHash.data
    | none => invalidStackOperation
  | OP_K12 => .ok (CK12.reset.write vch).finalize.data
  | _ => .ok (List.replicate 32 0)

/-- The opcodes `OP_RIPEMD160` to `OP_K12`. -/
def hash (opcode : Opcode) : Stack → Except ScriptFailure Stack
  | x :: s => do
    let vchHash ← digest opcode x
    return vchHash :: s
  | [] => invalidStackOperation

end Hashes

/-! ## Byte strings -/

/-- `OP_CAT`. -/
def cat : Stack → Except ScriptFailure Stack
  | x2 :: x1 :: s =>
    if x1.length + x2.length > maxScriptElementSize then scriptError .PUSH_SIZE
    else .ok ((x1 ++ x2) :: s)
  | _ => invalidStackOperation

/-- `OP_SPLIT`. -/
def split (flags : UInt32) : Stack → Except ScriptFailure Stack
  | x2 :: data :: s => do
    let position ← scriptNum flags x2
    require (0 ≤ position ∧ position ≤ data.length) (.error .INVALID_SPLIT_RANGE)
    return data.drop position.toNat :: data.take position.toNat :: s
  | _ => invalidStackOperation

/-- `OP_REVERSEBYTES`. -/
def reverseBytes : Stack → Except ScriptFailure Stack
  | x :: s => .ok (x.reverse :: s)
  | [] => invalidStackOperation

/-- The number `rawnum`, shorter than `size`, filled up to it : its sign moves to the last
byte. -/
def extendNumber (rawnum : Valtype) (size : ℕ) : Valtype :=
  match rawnum.getLast? with
  | none => List.replicate size 0
  | some last =>
    rawnum.dropLast ++ [last &&& 0x7f] ++ List.replicate (size - 1 - rawnum.length) 0 ++
      [last &&& 0x80]

/-- `OP_NUM2BIN`. -/
def num2bin (flags : UInt32) : Stack → Except ScriptFailure Stack
  | x2 :: x1 :: s => do
    let size ← scriptNum flags x2
    -- The source converts to an unsigned number, which makes a negative one too large.
    require (0 ≤ size ∧ size ≤ maxScriptElementSize) (.error .PUSH_SIZE)
    let rawnum := minimallyEncode x1
    require (rawnum.length ≤ size.toNat) (.error .IMPOSSIBLE_ENCODING)
    return (if rawnum.length = size.toNat then rawnum else extendNumber rawnum size.toNat) :: s
  | _ => invalidStackOperation

/-- `OP_BIN2NUM`. -/
def bin2num (flags : UInt32) : Stack → Except ScriptFailure Stack
  | x :: s => do
    let n := minimallyEncode x
    require (isMinimallyEncoded n (maxIntegerSize flags))
      (.error (if hasFlag flags .SCRIPT_64_BIT_INTEGERS then .INVALID_NUMBER_RANGE_64_BIT
        else .INVALID_NUMBER_RANGE))
    return n :: s
  | [] => invalidStackOperation

end StackOp

end RadiantCore
