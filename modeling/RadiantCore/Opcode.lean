import Mathlib.Data.UInt
import Mathlib.Tactic

/-!
# Script opcodes

`opcodetype` of `script/script.h`. A script byte is any value of `UInt8` ; the named
opcodes are the enumeration `Opcode`, with the byte of each (`Opcode.toByte`) and the
opcode of a byte, when it has one (`Opcode.ofByte?`). The bytes `0x01` to `0x4b` push
that many bytes and have no name, and those from `0xf0` on are undefined.
-/

namespace RadiantCore

/-- The named opcodes, in the order of their bytes : `OP_0` is `0x00`, the others are
`0x4c` to `0xef`. -/
inductive Opcode
  | OP_0 | OP_PUSHDATA1 | OP_PUSHDATA2 | OP_PUSHDATA4 | OP_1NEGATE | OP_RESERVED | OP_1 | OP_2
  | OP_3 | OP_4 | OP_5 | OP_6 | OP_7 | OP_8 | OP_9 | OP_10 | OP_11 | OP_12 | OP_13 | OP_14
  | OP_15 | OP_16 | OP_NOP | OP_VER | OP_IF | OP_NOTIF | OP_VERIF | OP_VERNOTIF | OP_ELSE
  | OP_ENDIF | OP_VERIFY | OP_RETURN | OP_TOALTSTACK | OP_FROMALTSTACK | OP_2DROP | OP_2DUP
  | OP_3DUP | OP_2OVER | OP_2ROT | OP_2SWAP | OP_IFDUP | OP_DEPTH | OP_DROP | OP_DUP | OP_NIP
  | OP_OVER | OP_PICK | OP_ROLL | OP_ROT | OP_SWAP | OP_TUCK | OP_CAT | OP_SPLIT | OP_NUM2BIN
  | OP_BIN2NUM | OP_SIZE | OP_INVERT | OP_AND | OP_OR | OP_XOR | OP_EQUAL | OP_EQUALVERIFY
  | OP_RESERVED1 | OP_RESERVED2 | OP_1ADD | OP_1SUB | OP_2MUL | OP_2DIV | OP_NEGATE | OP_ABS
  | OP_NOT | OP_0NOTEQUAL | OP_ADD | OP_SUB | OP_MUL | OP_DIV | OP_MOD | OP_LSHIFT | OP_RSHIFT
  | OP_BOOLAND | OP_BOOLOR | OP_NUMEQUAL | OP_NUMEQUALVERIFY | OP_NUMNOTEQUAL | OP_LESSTHAN
  | OP_GREATERTHAN | OP_LESSTHANOREQUAL | OP_GREATERTHANOREQUAL | OP_MIN | OP_MAX | OP_WITHIN
  | OP_RIPEMD160 | OP_SHA1 | OP_SHA256 | OP_HASH160 | OP_HASH256 | OP_CODESEPARATOR
  | OP_CHECKSIG | OP_CHECKSIGVERIFY | OP_CHECKMULTISIG | OP_CHECKMULTISIGVERIFY | OP_NOP1
  | OP_CHECKLOCKTIMEVERIFY | OP_CHECKSEQUENCEVERIFY | OP_NOP4 | OP_NOP5 | OP_NOP6 | OP_NOP7
  | OP_NOP8 | OP_NOP9 | OP_NOP10 | OP_CHECKDATASIG | OP_CHECKDATASIGVERIFY | OP_REVERSEBYTES
  | OP_STATESEPARATOR | OP_STATESEPARATORINDEX_UTXO | OP_STATESEPARATORINDEX_OUTPUT
  | OP_INPUTINDEX | OP_ACTIVEBYTECODE | OP_TXVERSION | OP_TXINPUTCOUNT | OP_TXOUTPUTCOUNT
  | OP_TXLOCKTIME | OP_UTXOVALUE | OP_UTXOBYTECODE | OP_OUTPOINTTXHASH | OP_OUTPOINTINDEX
  | OP_INPUTBYTECODE | OP_INPUTSEQUENCENUMBER | OP_OUTPUTVALUE | OP_OUTPUTBYTECODE
  | OP_SHA512_256 | OP_HASH512_256 | OP_PUSHINPUTREF | OP_REQUIREINPUTREF
  | OP_DISALLOWPUSHINPUTREF | OP_DISALLOWPUSHINPUTREFSIBLING | OP_REFHASHDATASUMMARY_UTXO
  | OP_REFHASHVALUESUM_UTXOS | OP_REFHASHDATASUMMARY_OUTPUT | OP_REFHASHVALUESUM_OUTPUTS
  | OP_PUSHINPUTREFSINGLETON | OP_REFTYPE_UTXO | OP_REFTYPE_OUTPUT | OP_REFVALUESUM_UTXOS
  | OP_REFVALUESUM_OUTPUTS | OP_REFOUTPUTCOUNT_UTXOS | OP_REFOUTPUTCOUNT_OUTPUTS
  | OP_REFOUTPUTCOUNTZEROVALUED_UTXOS | OP_REFOUTPUTCOUNTZEROVALUED_OUTPUTS
  | OP_REFDATASUMMARY_UTXO | OP_REFDATASUMMARY_OUTPUT | OP_CODESCRIPTHASHVALUESUM_UTXOS
  | OP_CODESCRIPTHASHVALUESUM_OUTPUTS | OP_CODESCRIPTHASHOUTPUTCOUNT_UTXOS
  | OP_CODESCRIPTHASHOUTPUTCOUNT_OUTPUTS | OP_CODESCRIPTHASHZEROVALUEDOUTPUTCOUNT_UTXOS
  | OP_CODESCRIPTHASHZEROVALUEDOUTPUTCOUNT_OUTPUTS | OP_CODESCRIPTBYTECODE_UTXO
  | OP_CODESCRIPTBYTECODE_OUTPUT | OP_STATESCRIPTBYTECODE_UTXO | OP_STATESCRIPTBYTECODE_OUTPUT
  | OP_PUSH_TX_STATE | OP_BLAKE3 | OP_K12
deriving DecidableEq, Repr

/-- The byte of an opcode. -/
def Opcode.toByte : Opcode → UInt8
  | .OP_0 => 0x00 | .OP_PUSHDATA1 => 0x4c | .OP_PUSHDATA2 => 0x4d | .OP_PUSHDATA4 => 0x4e
  | .OP_1NEGATE => 0x4f | .OP_RESERVED => 0x50 | .OP_1 => 0x51 | .OP_2 => 0x52 | .OP_3 => 0x53
  | .OP_4 => 0x54 | .OP_5 => 0x55 | .OP_6 => 0x56 | .OP_7 => 0x57 | .OP_8 => 0x58
  | .OP_9 => 0x59 | .OP_10 => 0x5a | .OP_11 => 0x5b | .OP_12 => 0x5c | .OP_13 => 0x5d
  | .OP_14 => 0x5e | .OP_15 => 0x5f | .OP_16 => 0x60 | .OP_NOP => 0x61 | .OP_VER => 0x62
  | .OP_IF => 0x63 | .OP_NOTIF => 0x64 | .OP_VERIF => 0x65 | .OP_VERNOTIF => 0x66
  | .OP_ELSE => 0x67 | .OP_ENDIF => 0x68 | .OP_VERIFY => 0x69 | .OP_RETURN => 0x6a
  | .OP_TOALTSTACK => 0x6b | .OP_FROMALTSTACK => 0x6c | .OP_2DROP => 0x6d | .OP_2DUP => 0x6e
  | .OP_3DUP => 0x6f | .OP_2OVER => 0x70 | .OP_2ROT => 0x71 | .OP_2SWAP => 0x72
  | .OP_IFDUP => 0x73 | .OP_DEPTH => 0x74 | .OP_DROP => 0x75 | .OP_DUP => 0x76
  | .OP_NIP => 0x77 | .OP_OVER => 0x78 | .OP_PICK => 0x79 | .OP_ROLL => 0x7a | .OP_ROT => 0x7b
  | .OP_SWAP => 0x7c | .OP_TUCK => 0x7d | .OP_CAT => 0x7e | .OP_SPLIT => 0x7f
  | .OP_NUM2BIN => 0x80 | .OP_BIN2NUM => 0x81 | .OP_SIZE => 0x82 | .OP_INVERT => 0x83
  | .OP_AND => 0x84 | .OP_OR => 0x85 | .OP_XOR => 0x86 | .OP_EQUAL => 0x87
  | .OP_EQUALVERIFY => 0x88 | .OP_RESERVED1 => 0x89 | .OP_RESERVED2 => 0x8a | .OP_1ADD => 0x8b
  | .OP_1SUB => 0x8c | .OP_2MUL => 0x8d | .OP_2DIV => 0x8e | .OP_NEGATE => 0x8f
  | .OP_ABS => 0x90 | .OP_NOT => 0x91 | .OP_0NOTEQUAL => 0x92 | .OP_ADD => 0x93
  | .OP_SUB => 0x94 | .OP_MUL => 0x95 | .OP_DIV => 0x96 | .OP_MOD => 0x97 | .OP_LSHIFT => 0x98
  | .OP_RSHIFT => 0x99 | .OP_BOOLAND => 0x9a | .OP_BOOLOR => 0x9b | .OP_NUMEQUAL => 0x9c
  | .OP_NUMEQUALVERIFY => 0x9d | .OP_NUMNOTEQUAL => 0x9e | .OP_LESSTHAN => 0x9f
  | .OP_GREATERTHAN => 0xa0 | .OP_LESSTHANOREQUAL => 0xa1 | .OP_GREATERTHANOREQUAL => 0xa2
  | .OP_MIN => 0xa3 | .OP_MAX => 0xa4 | .OP_WITHIN => 0xa5 | .OP_RIPEMD160 => 0xa6
  | .OP_SHA1 => 0xa7 | .OP_SHA256 => 0xa8 | .OP_HASH160 => 0xa9 | .OP_HASH256 => 0xaa
  | .OP_CODESEPARATOR => 0xab | .OP_CHECKSIG => 0xac | .OP_CHECKSIGVERIFY => 0xad
  | .OP_CHECKMULTISIG => 0xae | .OP_CHECKMULTISIGVERIFY => 0xaf | .OP_NOP1 => 0xb0
  | .OP_CHECKLOCKTIMEVERIFY => 0xb1 | .OP_CHECKSEQUENCEVERIFY => 0xb2 | .OP_NOP4 => 0xb3
  | .OP_NOP5 => 0xb4 | .OP_NOP6 => 0xb5 | .OP_NOP7 => 0xb6 | .OP_NOP8 => 0xb7
  | .OP_NOP9 => 0xb8 | .OP_NOP10 => 0xb9 | .OP_CHECKDATASIG => 0xba
  | .OP_CHECKDATASIGVERIFY => 0xbb | .OP_REVERSEBYTES => 0xbc | .OP_STATESEPARATOR => 0xbd
  | .OP_STATESEPARATORINDEX_UTXO => 0xbe | .OP_STATESEPARATORINDEX_OUTPUT => 0xbf
  | .OP_INPUTINDEX => 0xc0 | .OP_ACTIVEBYTECODE => 0xc1 | .OP_TXVERSION => 0xc2
  | .OP_TXINPUTCOUNT => 0xc3 | .OP_TXOUTPUTCOUNT => 0xc4 | .OP_TXLOCKTIME => 0xc5
  | .OP_UTXOVALUE => 0xc6 | .OP_UTXOBYTECODE => 0xc7 | .OP_OUTPOINTTXHASH => 0xc8
  | .OP_OUTPOINTINDEX => 0xc9 | .OP_INPUTBYTECODE => 0xca | .OP_INPUTSEQUENCENUMBER => 0xcb
  | .OP_OUTPUTVALUE => 0xcc | .OP_OUTPUTBYTECODE => 0xcd | .OP_SHA512_256 => 0xce
  | .OP_HASH512_256 => 0xcf | .OP_PUSHINPUTREF => 0xd0 | .OP_REQUIREINPUTREF => 0xd1
  | .OP_DISALLOWPUSHINPUTREF => 0xd2 | .OP_DISALLOWPUSHINPUTREFSIBLING => 0xd3
  | .OP_REFHASHDATASUMMARY_UTXO => 0xd4 | .OP_REFHASHVALUESUM_UTXOS => 0xd5
  | .OP_REFHASHDATASUMMARY_OUTPUT => 0xd6 | .OP_REFHASHVALUESUM_OUTPUTS => 0xd7
  | .OP_PUSHINPUTREFSINGLETON => 0xd8 | .OP_REFTYPE_UTXO => 0xd9 | .OP_REFTYPE_OUTPUT => 0xda
  | .OP_REFVALUESUM_UTXOS => 0xdb | .OP_REFVALUESUM_OUTPUTS => 0xdc
  | .OP_REFOUTPUTCOUNT_UTXOS => 0xdd | .OP_REFOUTPUTCOUNT_OUTPUTS => 0xde
  | .OP_REFOUTPUTCOUNTZEROVALUED_UTXOS => 0xdf | .OP_REFOUTPUTCOUNTZEROVALUED_OUTPUTS => 0xe0
  | .OP_REFDATASUMMARY_UTXO => 0xe1 | .OP_REFDATASUMMARY_OUTPUT => 0xe2
  | .OP_CODESCRIPTHASHVALUESUM_UTXOS => 0xe3 | .OP_CODESCRIPTHASHVALUESUM_OUTPUTS => 0xe4
  | .OP_CODESCRIPTHASHOUTPUTCOUNT_UTXOS => 0xe5 | .OP_CODESCRIPTHASHOUTPUTCOUNT_OUTPUTS => 0xe6
  | .OP_CODESCRIPTHASHZEROVALUEDOUTPUTCOUNT_UTXOS => 0xe7
  | .OP_CODESCRIPTHASHZEROVALUEDOUTPUTCOUNT_OUTPUTS => 0xe8
  | .OP_CODESCRIPTBYTECODE_UTXO => 0xe9 | .OP_CODESCRIPTBYTECODE_OUTPUT => 0xea
  | .OP_STATESCRIPTBYTECODE_UTXO => 0xeb | .OP_STATESCRIPTBYTECODE_OUTPUT => 0xec
  | .OP_PUSH_TX_STATE => 0xed | .OP_BLAKE3 => 0xee | .OP_K12 => 0xef

namespace Opcode

instance : Coe Opcode UInt8 := ⟨toByte⟩

/-- The named opcode of a byte. -/
def ofByte? (b : UInt8) : Option Opcode :=
  if b = 0 then some .OP_0
  else if 0x4c ≤ b ∧ b ≤ 0xef then some (Opcode.ofNat (b.toNat - 0x4b))
  else none

theorem ofByte?_toByte (o : Opcode) : ofByte? o.toByte = some o := by
  cases o <;> rfl

theorem toByte_injective : Function.Injective toByte := fun a b h =>
  Option.some.inj (by rw [← ofByte?_toByte a, h, ofByte?_toByte b])

theorem toByte_inj {a b : Opcode} : a.toByte = b.toByte ↔ a = b :=
  toByte_injective.eq_iff

end Opcode

end RadiantCore
