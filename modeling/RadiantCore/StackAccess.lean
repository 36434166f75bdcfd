import RadiantCore.OpFailures

/-!
# Accesses to the stack

`EvalScript` reads the stack by `stacktop`, which throws when the stack is too small, and shrinks
it by `popstack`, which throws when it is empty. `StackOps` and `Interpreter` match on the elements
an opcode needs instead. Here the opcodes are written with the accesses of the source, in its
order (`EvalScript.execOp`), and the two are the same function (`EvalScript.execOp_eq`) : each
opcode checks the size of the stack before it reaches into it.

An iterator before the begin of the stack is undefined in the source, and ends the run here.
-/

namespace RadiantCore

open Opcode

namespace EvalScript

/-! ## The stack of the source -/

/-- A computation on the stack. -/
abbrev StackM := StateT Stack (Except ScriptFailure)

/-- `stacktop(-depth)`, which is `stack.at(stack.size() - depth)`. -/
def stacktop (depth : ℕ) : StackM Valtype := fun stack =>
  match depth with
  | 0 => .error (.exception "vector::_M_range_check")
  | d + 1 =>
    match stack[d]? with
    | some vch => .ok (vch, stack)
    | none => .error (.exception "vector::_M_range_check")

/-- `stacktop(-depth) = vch`. -/
def setStacktop (depth : ℕ) (vch : Valtype) : StackM Unit := do
  let _ ← stacktop depth
  modify (·.set (depth - 1) vch)

/-- `swap(stacktop(-i), stacktop(-j))`. -/
def swap (i j : ℕ) : StackM Unit := do
  let x ← stacktop i
  let y ← stacktop j
  setStacktop i y
  setStacktop j x

/-- `popstack`. -/
def popstack : StackM Unit := fun stack =>
  match stack with
  | [] => .error (.exception "popstack(): stack empty")
  | _ :: s => .ok ((), s)

/-- `stack.push_back(vch)`. -/
def pushBack (vch : Valtype) : StackM Unit := modify (vch :: ·)

/-- `stack.erase(stack.end() - depth)`. -/
def erase (depth : ℕ) : StackM Unit := fun stack =>
  if 1 ≤ depth ∧ depth ≤ stack.length then .ok ((), stack.eraseIdx (depth - 1))
  else .error (.abort "iterator out of range")

/-- `stack.insert(stack.end() - depth, vch)`. -/
def insertBefore (depth : ℕ) (vch : Valtype) : StackM Unit := fun stack =>
  if depth ≤ stack.length then .ok ((), stack.insertIdx depth vch)
  else .error (.abort "iterator out of range")

/-- `if (!p) return set_error(serror, e)`. -/
def check (p : Prop) [Decidable p] (e : ScriptError) : StackM Unit :=
  liftM (require p (ScriptFailure.error e))

/-- `if (stack.size() < n) return set_error(serror, INVALID_STACK_OPERATION)`. -/
def requireSize (n : ℕ) : StackM Unit := fun stack =>
  if stack.length < n then invalidStackOperation else .ok ((), stack)

/-- A computation on a stack, as a function of it. -/
def run {α : Type} (x : StackM α) (stack : Stack) : Except ScriptFailure (α × Stack) := x stack

/-- The result of an opcode that is a function of the stack. -/
def onlyStack (result : Except ScriptFailure Stack) : Except ScriptFailure (Unit × Stack) := do
  let stack ← result
  return ((), stack)

section Run

variable {α β : Type} {x : StackM α} {f : α → StackM β} {g : Unit → StackM β} {stack : Stack}
  {vch : Valtype}

theorem run_bind (x : StackM α) (f : α → StackM β) (stack : Stack) :
    run (x >>= f) stack = run x stack >>= fun p => run (f p.1) p.2 := rfl

theorem run_bind_ok {a : α} {stack' : Stack} (h : run x stack = .ok (a, stack')) :
    run (x >>= f) stack = run (f a) stack' := by
  rw [run_bind, h, ok_bind]

variable {n : ℕ}

theorem run_requireSize (h : n ≤ stack.length) :
    run (requireSize n >>= g) stack = run (g ()) stack :=
  run_bind_ok (if_neg (Nat.not_lt.mpr h))

theorem run_requireSize_of_lt (h : stack.length < n) :
    run (requireSize n >>= g) stack = invalidStackOperation := by
  rw [run_bind, run, requireSize, if_pos h]
  rfl

variable {d : ℕ}

theorem run_stacktop {f : Valtype → StackM β} (h : stack[d]? = some vch) :
    run (stacktop (d + 1) >>= f) stack = run (f vch) stack :=
  run_bind_ok (by rw [run, stacktop, h])

variable {y : Valtype}

theorem run_stacktop_of_eq {depth : ℕ} {f : Valtype → StackM β}
    (hdepth : depth = d + 2) (h : stack[d]? = some vch) :
    run (stacktop depth >>= f) (y :: stack) = run (f vch) (y :: stack) := by
  rw [hdepth]
  exact run_stacktop h

@[simp] theorem run_lift_bind (e : Except ScriptFailure α) :
    run (liftM e >>= f) stack = e >>= fun a => run (f a) stack := by
  cases e with
  | error => rfl
  | ok => rfl

@[simp] theorem run_check_bind (p : Prop) [Decidable p] (e : ScriptError) :
    run (check p e >>= g) stack = require p (.error e) >>= fun _ => run (g ()) stack :=
  run_lift_bind _

@[simp] theorem run_check (p : Prop) [Decidable p] (e : ScriptError) :
    run (check p e) stack = require p (.error e) >>= fun _ => .ok ((), stack) := by
  unfold check require
  split_ifs
  · rfl
  · rfl

@[simp] theorem run_throw (e : ScriptFailure) : run (throw e : StackM α) stack = .error e := rfl

@[simp] theorem run_pure (a : α) : run (pure a) stack = .ok (a, stack) := rfl

@[simp] theorem run_get_bind {f : Stack → StackM β} :
    run (get >>= f) stack = run (f stack) stack := rfl

@[simp] theorem run_popstack_bind : run (popstack >>= g) (vch :: stack) = run (g ()) stack :=
  run_bind_ok rfl

@[simp] theorem run_popstack : run popstack (vch :: stack) = .ok ((), stack) := rfl

/-- `for (i = 0; i < n; i++) popstack(stack)`. -/
def popMany : ℕ → StackM Unit
  | 0 => pure ()
  | n + 1 => do
    popstack
    popMany n

theorem run_popMany (h : n ≤ stack.length) :
    run (popMany n) stack = .ok ((), stack.drop n) := by
  induction n generalizing stack with
  | zero => rfl
  | succ n ih =>
    match stack, h with
    | _ :: s, h => exact run_popstack_bind.trans (ih (Nat.le_of_succ_le_succ h))

@[simp] theorem run_pushBack_bind : run (pushBack vch >>= g) stack = run (g ()) (vch :: stack) :=
  run_bind_ok rfl

@[simp] theorem run_pushBack : run (pushBack vch) stack = .ok ((), vch :: stack) := rfl

@[simp] theorem run_stacktop_one {f : Valtype → StackM β} :
    run (stacktop 1 >>= f) (vch :: stack) = run (f vch) (vch :: stack) := run_stacktop rfl

@[simp] theorem run_stacktop_two {f : Valtype → StackM β} :
    run (stacktop 2 >>= f) (y :: vch :: stack) = run (f vch) (y :: vch :: stack) :=
  run_stacktop rfl

@[simp] theorem run_requireSize_one :
    run (requireSize 1 >>= g) (vch :: stack) = run (g ()) (vch :: stack) :=
  run_requireSize (by simp)

@[simp] theorem run_requireSize_two :
    run (requireSize 2 >>= g) (y :: vch :: stack) = run (g ()) (y :: vch :: stack) :=
  run_requireSize (by simp)

theorem run_erase_bind (h : d < stack.length) :
    run (erase (d + 1) >>= g) stack = run (g ()) (stack.eraseIdx d) :=
  run_bind_ok (if_pos ⟨Nat.le_add_left 1 d, h⟩)

@[simp] theorem run_setStacktop_one :
    run (setStacktop 1 vch) (y :: stack) = .ok ((), vch :: stack) := rfl

@[simp] theorem run_setStacktop_two_bind {z : Valtype} :
    run (setStacktop 2 vch >>= g) (y :: z :: stack) = run (g ()) (y :: vch :: stack) :=
  run_bind_ok rfl

@[simp] theorem onlyStack_ok : onlyStack (.ok stack) = .ok ((), stack) := rfl

@[simp] theorem onlyStack_pure : onlyStack (pure stack) = .ok ((), stack) := rfl

@[simp] theorem onlyStack_scriptError (e : ScriptError) :
    onlyStack (scriptError e) = .error (.error e) := rfl

@[simp] theorem onlyStack_map (e : Except ScriptFailure α) (h : α → Stack) :
    onlyStack (h <$> e) = e >>= fun a => .ok ((), h a) := by
  cases e with
  | error => rfl
  | ok => rfl

@[simp] theorem onlyStack_error (e : ScriptFailure) : onlyStack (.error e) = .error e := rfl

@[simp] theorem onlyStack_bind (e : Except ScriptFailure α) (h : α → Except ScriptFailure Stack) :
    onlyStack (e >>= h) = e >>= fun a => onlyStack (h a) := by
  cases e with
  | error => rfl
  | ok => rfl

end Run

/-! ## The opcodes of the stack -/

/-- The opcodes from `OP_2DROP` to `OP_TUCK` that move elements. -/
def shuffle (opcode : Opcode) : StackM Unit :=
  match opcode with
  | OP_2DROP => do
    requireSize 2
    popstack
    popstack
  | OP_2DUP => do
    requireSize 2
    let vch1 ← stacktop 2
    let vch2 ← stacktop 1
    pushBack vch1
    pushBack vch2
  | OP_3DUP => do
    requireSize 3
    let vch1 ← stacktop 3
    let vch2 ← stacktop 2
    let vch3 ← stacktop 1
    pushBack vch1
    pushBack vch2
    pushBack vch3
  | OP_2OVER => do
    requireSize 4
    let vch1 ← stacktop 4
    let vch2 ← stacktop 3
    pushBack vch1
    pushBack vch2
  | OP_2ROT => do
    requireSize 6
    let vch1 ← stacktop 6
    let vch2 ← stacktop 5
    -- `stack.erase(stack.end() - 6, stack.end() - 4)`
    erase 6
    erase 5
    pushBack vch1
    pushBack vch2
  | OP_2SWAP => do
    requireSize 4
    swap 4 2
    swap 3 1
  | OP_IFDUP => do
    requireSize 1
    let vch ← stacktop 1
    if castToBool vch then pushBack vch
  | OP_DROP => do
    requireSize 1
    popstack
  | OP_DUP => do
    requireSize 1
    let vch ← stacktop 1
    pushBack vch
  | OP_NIP => do
    requireSize 2
    erase 2
  | OP_OVER => do
    requireSize 2
    let vch ← stacktop 2
    pushBack vch
  | OP_ROT => do
    requireSize 3
    swap 3 2
    swap 2 1
  | OP_SWAP => do
    requireSize 2
    swap 2 1
  | OP_TUCK => do
    requireSize 2
    let vch ← stacktop 1
    insertBefore 2 vch
  | _ => throw (.error .INVALID_STACK_OPERATION)

section

variable (stack : Stack)

theorem run_shuffle (opcode : Opcode) :
    run (shuffle opcode) stack = onlyStack (StackOp.shuffle opcode stack) := by
  cases opcode
  case OP_2ROT =>
    match stack with
    | [] | [_] | [_, _] | [_, _, _] | [_, _, _, _] | [_, _, _, _, _] => rfl
    | _ :: _ :: _ :: _ :: _ :: _ :: s => rfl
  case OP_2OVER | OP_2SWAP =>
    match stack with
    | [] | [_] | [_, _] | [_, _, _] => rfl
    | _ :: _ :: _ :: _ :: s => rfl
  case OP_3DUP | OP_ROT =>
    match stack with
    | [] | [_] | [_, _] => rfl
    | _ :: _ :: _ :: s => rfl
  case OP_2DROP | OP_2DUP | OP_NIP | OP_OVER | OP_SWAP | OP_TUCK =>
    match stack with
    | [] | [_] => rfl
    | _ :: _ :: s => rfl
  case OP_DROP | OP_DUP =>
    match stack with
    | [] => rfl
    | _ :: s => rfl
  case OP_IFDUP =>
    match stack with
    | [] => rfl
    | x :: s =>
      change run (if castToBool x then pushBack x else pure ()) (x :: s) =
        .ok ((), if castToBool x then x :: x :: s else x :: s)
      split_ifs
      · rfl
      · rfl
  all_goals rfl

/-- `OP_PICK` and `OP_ROLL`. -/
def pickOrRoll (flags : UInt32) (opcode : Opcode) : StackM Unit := do
  requireSize 2
  let n ← scriptNum flags (← stacktop 1)
  popstack
  let size := (← get).length
  check (¬ (n < 0 ∨ size ≤ n.toNat)) .INVALID_STACK_OPERATION
  let vch ← stacktop (n.toNat + 1)
  if opcode = OP_ROLL then erase (n.toNat + 1)
  pushBack vch

theorem run_pickOrRoll (flags : UInt32) (opcode : Opcode) :
    run (pickOrRoll flags opcode) stack = onlyStack (StackOp.pickOrRoll flags opcode stack) := by
  match stack with
  | [] | [_] => rfl
  | x :: y :: s =>
    simp only [pickOrRoll, StackOp.pickOrRoll, run_requireSize_two, run_stacktop_one,
      run_lift_bind, run_popstack_bind, onlyStack_bind, run_get_bind, run_check_bind]
    congr 1
    funext n
    by_cases hneg : n < 0
    · rw [require_neg (fun h => h (Or.inl hneg)), if_pos hneg]
      rfl
    · rw [if_neg hneg]
      cases hget : (y :: s)[n.toNat]? with
      | none =>
        rw [require_neg (fun h => h (Or.inr (List.getElem?_eq_none_iff.mp hget)))]
        rfl
      | some vch =>
        have hlt : n.toNat < (y :: s).length := (List.getElem?_eq_some_iff.mp hget).1
        rw [require_pos (not_or.mpr ⟨hneg, Nat.not_le.mpr hlt⟩), ok_bind, run_stacktop hget]
        by_cases hroll : opcode = OP_ROLL
        · rw [if_pos hroll, run_erase_bind hlt, if_pos hroll]
          rfl
        · rw [if_neg hroll, if_neg hroll]
          rfl

/-- `OP_VERIFY`. -/
def verify : StackM Unit := do
  requireSize 1
  let fValue := castToBool (← stacktop 1)
  if fValue then popstack else throw (.error .VERIFY)

theorem run_verify : run verify stack = onlyStack (StackOp.verify stack) := by
  match stack with
  | [] => rfl
  | x :: s =>
    simp only [verify, StackOp.verify, run_requireSize_one, run_stacktop_one]
    split_ifs
    · rfl
    · rfl

/-- `OP_SIZE`. -/
def size : StackM Unit := do
  requireSize 1
  let vch ← stacktop 1
  pushBack (CScriptNum.serialize vch.length)

theorem run_size : run size stack = onlyStack (StackOp.size stack) := by
  match stack with
  | [] => rfl
  | x :: s => rfl

/-! ## Bit strings -/

/-- `OP_AND`, `OP_OR` and `OP_XOR`. -/
def bitwise (f : UInt8 → UInt8 → UInt8) : StackM Unit := do
  requireSize 2
  let vch1 ← stacktop 2
  let vch2 ← stacktop 1
  check (vch1.length = vch2.length) .INVALID_OPERAND_SIZE
  setStacktop 2 (List.zipWith f vch1 vch2)
  popstack

theorem run_bitwise (f : UInt8 → UInt8 → UInt8) :
    run (bitwise f) stack = onlyStack (StackOp.bitwise f stack) := by
  match stack with
  | [] | [_] => rfl
  | x2 :: x1 :: s =>
    simp only [bitwise, StackOp.bitwise, run_requireSize_two, run_stacktop_two, run_stacktop_one,
      run_check_bind, run_setStacktop_two_bind, run_popstack]
    by_cases hlen : x1.length = x2.length
    · rw [require_pos hlen, if_neg (not_not.mpr hlen)]
      rfl
    · rw [require_neg hlen, if_pos hlen]
      rfl

/-- `OP_INVERT`. -/
def invert : StackM Unit := do
  requireSize 1
  let vch1 ← stacktop 1
  setStacktop 1 (vch1.map fun b => ~~~b)

theorem run_invert : run invert stack = onlyStack (StackOp.invert stack) := by
  match stack with
  | [] => rfl
  | x :: s => rfl

/-- `OP_LSHIFT` and `OP_RSHIFT`. -/
def shift (flags : UInt32) (f : Valtype → ℕ → Valtype) : StackM Unit := do
  requireSize 2
  let vch1 ← stacktop 2
  let n ← scriptNum flags (← stacktop 1)
  check (0 ≤ n ∧ n ≤ 8 * vch1.length) .INVALID_NUMBER_RANGE
  popstack
  popstack
  pushBack (f vch1 n.toNat)

theorem run_shift (flags : UInt32) (f : Valtype → ℕ → Valtype) :
    run (shift flags f) stack = onlyStack (StackOp.shift flags f stack) := by
  match stack with
  | [] | [_] => rfl
  | x2 :: x1 :: s => simp [shift, StackOp.shift]

/-- `OP_EQUAL`, and `OP_EQUALVERIFY` when `fVerify`. -/
def equal (fVerify : Bool) : StackM Unit := do
  requireSize 2
  let vch1 ← stacktop 2
  let vch2 ← stacktop 1
  let fEqual : Bool := vch1 = vch2
  popstack
  popstack
  pushBack (vchOfBool fEqual)
  if fVerify then
    if fEqual then popstack else throw (.error .EQUALVERIFY)

theorem run_equal (fVerify : Bool) :
    run (equal fVerify) stack = onlyStack (StackOp.equal fVerify stack) := by
  match stack with
  | [] | [_] => rfl
  | x2 :: x1 :: s =>
    simp only [equal, StackOp.equal, run_requireSize_two, run_stacktop_two, run_stacktop_one,
      run_popstack_bind, run_pushBack_bind]
    cases fVerify with
    | false => rfl
    | true =>
      by_cases h : x1 = x2
      · simp [h]
      · simp [h, scriptError]

/-! ## Numbers -/

/-- The opcodes `OP_1ADD` to `OP_0NOTEQUAL`. -/
def unaryNumeric (flags : UInt32) (opcode : Opcode) : StackM Unit := do
  requireSize 1
  let bn ← scriptNum flags (← stacktop 1)
  let bn ← StackOp.unaryNumber opcode bn
  popstack
  pushBack (CScriptNum.serialize bn)

theorem run_unaryNumeric (flags : UInt32) (opcode : Opcode) :
    run (unaryNumeric flags opcode) stack =
      onlyStack (StackOp.unaryNumeric flags opcode stack) := by
  match stack with
  | [] => rfl
  | x :: s => simp [unaryNumeric, StackOp.unaryNumeric]

/-- The opcodes `OP_ADD` to `OP_MAX`. -/
def binaryNumeric (flags : UInt32) (opcode : Opcode) : StackM Unit := do
  requireSize 2
  let bn1 ← scriptNum flags (← stacktop 2)
  let bn2 ← scriptNum flags (← stacktop 1)
  let bn ← StackOp.binaryNumber opcode bn1 bn2
  popstack
  popstack
  pushBack (CScriptNum.serialize bn)
  if opcode = OP_NUMEQUALVERIFY then
    if castToBool (← stacktop 1) then popstack else throw (.error .NUMEQUALVERIFY)

theorem run_binaryNumeric (flags : UInt32) (opcode : Opcode) :
    run (binaryNumeric flags opcode) stack =
      onlyStack (StackOp.binaryNumeric flags opcode stack) := by
  match stack with
  | [] | [_] => rfl
  | x2 :: x1 :: s =>
    simp only [binaryNumeric, StackOp.binaryNumeric, run_requireSize_two, run_stacktop_two,
      run_stacktop_one, run_lift_bind, run_popstack_bind, run_pushBack_bind, onlyStack_bind]
    congr! 6 with bn1 bn2 bn
    split_ifs
    · simp [*]
    · simp [*]
    · simp [*]

/-- `OP_WITHIN`. -/
def within (flags : UInt32) : StackM Unit := do
  requireSize 3
  let bn1 ← scriptNum flags (← stacktop 3)
  let bn2 ← scriptNum flags (← stacktop 2)
  let bn3 ← scriptNum flags (← stacktop 1)
  popstack
  popstack
  popstack
  pushBack (vchOfBool (bn2 ≤ bn1 ∧ bn1 < bn3))

theorem run_within (flags : UInt32) :
    run (within flags) stack = onlyStack (StackOp.within flags stack) := by
  match stack with
  | [] | [_] | [_, _] => rfl
  | x3 :: x2 :: x1 :: s =>
    rw [within, run_requireSize (by simp), run_stacktop rfl]
    simp [StackOp.within]

/-- The opcodes `OP_RIPEMD160` to `OP_K12`. -/
def hash [Crypto] (opcode : Opcode) : StackM Unit := do
  requireSize 1
  let vchHash ← StackOp.digest opcode (← stacktop 1)
  popstack
  pushBack vchHash

theorem run_hash [Crypto] (opcode : Opcode) :
    run (hash opcode) stack = onlyStack (StackOp.hash opcode stack) := by
  match stack with
  | [] => rfl
  | x :: s => simp [hash, StackOp.hash]

/-! ## Byte strings -/

/-- `OP_CAT`. -/
def cat : StackM Unit := do
  requireSize 2
  let vch1 ← stacktop 2
  let vch2 ← stacktop 1
  check (vch1.length + vch2.length ≤ maxScriptElementSize) .PUSH_SIZE
  setStacktop 2 (vch1 ++ vch2)
  popstack

theorem run_cat : run cat stack = onlyStack (StackOp.cat stack) := by
  match stack with
  | [] | [_] => rfl
  | x2 :: x1 :: s =>
    simp only [cat, StackOp.cat, run_requireSize_two, run_stacktop_two, run_stacktop_one,
      run_check_bind, run_setStacktop_two_bind, run_popstack]
    split_ifs with hlen
    · rw [require_neg (Nat.not_le.mpr hlen)]
      rfl
    · rw [require_pos (Nat.not_lt.mp hlen)]
      rfl

/-- `OP_SPLIT`. -/
def split (flags : UInt32) : StackM Unit := do
  requireSize 2
  let data ← stacktop 2
  let position ← scriptNum flags (← stacktop 1)
  check (0 ≤ position ∧ position ≤ data.length) .INVALID_SPLIT_RANGE
  setStacktop 2 (data.take position.toNat)
  setStacktop 1 (data.drop position.toNat)

theorem run_split (flags : UInt32) :
    run (split flags) stack = onlyStack (StackOp.split flags stack) := by
  match stack with
  | [] | [_] => rfl
  | x2 :: x1 :: s => simp [split, StackOp.split]

/-- `OP_REVERSEBYTES`. -/
def reverseBytes : StackM Unit := do
  requireSize 1
  let data ← stacktop 1
  setStacktop 1 data.reverse

theorem run_reverseBytes : run reverseBytes stack = onlyStack (StackOp.reverseBytes stack) := by
  match stack with
  | [] => rfl
  | x :: s => rfl

/-- `OP_NUM2BIN`. -/
def num2bin (flags : UInt32) : StackM Unit := do
  requireSize 2
  let size ← scriptNum flags (← stacktop 1)
  check (0 ≤ size ∧ size ≤ maxScriptElementSize) .PUSH_SIZE
  popstack
  let rawnum := CScriptNum.minimallyEncode (← stacktop 1)
  check (rawnum.length ≤ size.toNat) .IMPOSSIBLE_ENCODING
  setStacktop 1
    (if rawnum.length = size.toNat then rawnum else StackOp.extendNumber rawnum size.toNat)

theorem run_num2bin (flags : UInt32) :
    run (num2bin flags) stack = onlyStack (StackOp.num2bin flags stack) := by
  match stack with
  | [] | [_] => rfl
  | x2 :: x1 :: s => simp [num2bin, StackOp.num2bin]

/-- `OP_BIN2NUM`. -/
def bin2num (flags : UInt32) : StackM Unit := do
  requireSize 1
  let n := CScriptNum.minimallyEncode (← stacktop 1)
  check (CScriptNum.isMinimallyEncoded n (maxIntegerSize flags))
    (if hasFlag flags .SCRIPT_64_BIT_INTEGERS then .INVALID_NUMBER_RANGE_64_BIT
      else .INVALID_NUMBER_RANGE)
  setStacktop 1 n

theorem run_bin2num (flags : UInt32) :
    run (bin2num flags) stack = onlyStack (StackOp.bin2num flags stack) := by
  match stack with
  | [] => rfl
  | x :: s => simp [bin2num, StackOp.bin2num]

end

end EvalScript

end RadiantCore
