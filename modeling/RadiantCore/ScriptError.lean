import RadiantCore.Script

/-!
# Script errors and flags

`script_error.h` and `script_flags.h`. A function of the interpreter that does not succeed
returns an error, throws an exception or fails an assertion (`ScriptFailure`). `EvalScript`
turns what is thrown inside it into the error `UNKNOWN`.

The flags are the bits of a 32-bit word (`ScriptFlag.bit`, `hasFlag`).
-/

namespace RadiantCore

/-- The errors of `ScriptError` that the interpreter sets. -/
inductive ScriptError
  | UNKNOWN | EVAL_FALSE | OP_RETURN
  | SCRIPT_SIZE | PUSH_SIZE | OP_COUNT | STACK_SIZE | SIG_COUNT | PUBKEY_COUNT
  | INVALID_OPERAND_SIZE | INVALID_NUMBER_RANGE | IMPOSSIBLE_ENCODING | INVALID_SPLIT_RANGE
  | INVALID_BIT_COUNT
  | VERIFY | EQUALVERIFY | CHECKMULTISIGVERIFY | CHECKSIGVERIFY | CHECKDATASIGVERIFY
  | NUMEQUALVERIFY
  | BAD_OPCODE | DISABLED_OPCODE | INVALID_STACK_OPERATION | INVALID_ALTSTACK_OPERATION
  | UNBALANCED_CONDITIONAL
  | DIV_BY_ZERO | MOD_BY_ZERO
  | INVALID_BITFIELD_SIZE | INVALID_BIT_RANGE
  | NEGATIVE_LOCKTIME | UNSATISFIED_LOCKTIME
  | SIG_HASHTYPE | SIG_DER | MINIMALDATA | SIG_PUSHONLY | SIG_HIGH_S | PUBKEYTYPE | CLEANSTACK
  | MINIMALIF | SIG_NULLFAIL
  | SIG_BADLENGTH | SIG_NONSCHNORR
  | DISCOURAGE_UPGRADABLE_NOPS
  | ILLEGAL_FORKID | MUST_USE_FORKID
  | INVALID_NUMBER_RANGE_64_BIT
  | CONTEXT_NOT_PRESENT | LIMITED_CONTEXT_NO_SIBLING_INFO | INVALID_TX_INPUT_INDEX
  | INVALID_TX_OUTPUT_INDEX
  | INVALID_TX_HASH_SIZE | INVALID_TX_REFHASH_SIZE | INVALID_TX_REF_SIZE | INVALID_TX_STATE_ITEM
  | INVALID_TX_OUTPUT_CONTAINS_DISALLOWED_PUSHREF
deriving DecidableEq, Repr

/-- How a function of the interpreter does not succeed. -/
inductive ScriptFailure
  /-- `return set_error(serror, error)`. -/
  | error (e : ScriptError)
  /-- `throw` of an exception with a message. -/
  | exception (what : String)
  /-- A failed `assert`. -/
  | abort (what : String)
deriving DecidableEq, Repr

/-- The bits of `script_flags.h`. -/
inductive ScriptFlag
  | SCRIPT_VERIFY_P2SH | SCRIPT_VERIFY_STRICTENC | SCRIPT_VERIFY_DERSIG | SCRIPT_VERIFY_LOW_S
  | SCRIPT_VERIFY_SIGPUSHONLY | SCRIPT_VERIFY_MINIMALDATA
  | SCRIPT_VERIFY_DISCOURAGE_UPGRADABLE_NOPS | SCRIPT_VERIFY_CLEANSTACK
  | SCRIPT_VERIFY_CHECKLOCKTIMEVERIFY | SCRIPT_VERIFY_CHECKSEQUENCEVERIFY
  | SCRIPT_VERIFY_MINIMALIF | SCRIPT_VERIFY_NULLFAIL | SCRIPT_ENABLE_SIGHASH_FORKID
  | SCRIPT_DISALLOW_SEGWIT_RECOVERY | SCRIPT_ENABLE_SCHNORR_MULTISIG | SCRIPT_ENFORCE_SIGCHECKS
  | SCRIPT_64_BIT_INTEGERS | SCRIPT_NATIVE_INTROSPECTION | SCRIPT_ENHANCED_REFERENCES
  | SCRIPT_PUSH_TX_STATE
deriving DecidableEq, Repr

/-- The position of the bit of a flag. -/
def ScriptFlag.bit : ScriptFlag → ℕ
  | SCRIPT_VERIFY_P2SH => 0
  | SCRIPT_VERIFY_STRICTENC => 1
  | SCRIPT_VERIFY_DERSIG => 2
  | SCRIPT_VERIFY_LOW_S => 3
  | SCRIPT_VERIFY_SIGPUSHONLY => 5
  | SCRIPT_VERIFY_MINIMALDATA => 6
  | SCRIPT_VERIFY_DISCOURAGE_UPGRADABLE_NOPS => 7
  | SCRIPT_VERIFY_CLEANSTACK => 8
  | SCRIPT_VERIFY_CHECKLOCKTIMEVERIFY => 9
  | SCRIPT_VERIFY_CHECKSEQUENCEVERIFY => 10
  | SCRIPT_VERIFY_MINIMALIF => 13
  | SCRIPT_VERIFY_NULLFAIL => 14
  | SCRIPT_ENABLE_SIGHASH_FORKID => 16
  | SCRIPT_DISALLOW_SEGWIT_RECOVERY => 20
  | SCRIPT_ENABLE_SCHNORR_MULTISIG => 21
  | SCRIPT_ENFORCE_SIGCHECKS => 23
  | SCRIPT_64_BIT_INTEGERS => 24
  | SCRIPT_NATIVE_INTROSPECTION => 25
  | SCRIPT_ENHANCED_REFERENCES => 26
  | SCRIPT_PUSH_TX_STATE => 27

/-- `flags & flag`, as a condition. -/
def hasFlag (flags : UInt32) (flag : ScriptFlag) : Bool := flags.toNat.testBit flag.bit

/-- `flags |= flag`, when `c` holds. -/
def setFlag (flags : UInt32) (flag : ScriptFlag) (c : Bool) : UInt32 :=
  if c then flags ||| UInt32.ofNat (2 ^ flag.bit) else flags

theorem ScriptFlag.bit_lt (flag : ScriptFlag) : flag.bit < 32 := by
  cases flag <;> decide

theorem ScriptFlag.bit_injective : Function.Injective ScriptFlag.bit := fun a b h => by
  cases a <;> cases b <;> first | rfl | cases h

theorem hasFlag_setFlag (flags : UInt32) (flag flag' : ScriptFlag) (c : Bool) :
    hasFlag (setFlag flags flag c) flag' = (hasFlag flags flag' || (c && flag = flag')) := by
  cases c with
  | false => simp [setFlag]
  | true =>
    have hbits : (UInt32.ofNat (2 ^ flag.bit)).toNat = 2 ^ flag.bit :=
      UInt32.toNat_ofNat_of_lt' (Nat.pow_lt_pow_right (by decide) flag.bit_lt)
    simp [setFlag, hasFlag, hbits, Nat.testBit_two_pow, ScriptFlag.bit_injective.eq_iff]

end RadiantCore
