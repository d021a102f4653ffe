import Reddcoin.Primitives.Transaction

/-!
# Script parsing

The byte-level reading of scripts in `script/script.h` and `script/script.cpp` that block validation
needs: `GetOp2`, the two signature operation counts, the pay-to-script-hash test, and the part of
`Solver` that recognises a pay-to-pubkey output.
-/

namespace Reddcoin

def OP_PUSHDATA1 : Nat := 0x4c
def OP_PUSHDATA2 : Nat := 0x4d
def OP_PUSHDATA4 : Nat := 0x4e
def OP_1NEGATE : Nat := 0x4f
def OP_1 : Nat := 0x51
def OP_16 : Nat := 0x60
def OP_EQUAL : Nat := 0x87
def OP_HASH160 : Nat := 0xa9
def OP_CHECKSIG : Nat := 0xac
def OP_CHECKSIGVERIFY : Nat := 0xad
def OP_CHECKMULTISIG : Nat := 0xae
def OP_CHECKMULTISIGVERIFY : Nat := 0xaf
def OP_INVALIDOPCODE : Nat := 0xff

def MAX_SCRIPT_ELEMENT_SIZE : Nat := 520

/-! ## Verification flags -/

def SCRIPT_VERIFY_P2SH : Nat := 1
def SCRIPT_VERIFY_STRICTENC : Nat := 2
def SCRIPT_VERIFY_DERSIG : Nat := 4
def SCRIPT_VERIFY_LOW_S : Nat := 8
def SCRIPT_VERIFY_NULLDUMMY : Nat := 16
def SCRIPT_VERIFY_SIGPUSHONLY : Nat := 32
def SCRIPT_VERIFY_MINIMALDATA : Nat := 64
def SCRIPT_VERIFY_DISCOURAGE_UPGRADABLE_NOPS : Nat := 128

def MANDATORY_SCRIPT_VERIFY_FLAGS : Nat := SCRIPT_VERIFY_P2SH

/-! ## Instructions -/

/-- One parsed instruction, the bytes it pushes, and the position after it. -/
structure ScriptOp where
  opcode : Nat
  vch : List UInt8
  pc : CScript

/-- A little-endian length of `width` bytes, as the two `memcpy` calls read it. -/
def readSize : Nat → CScript → Option (Nat × CScript)
  | 0, pc => some (0, pc)
  | _ + 1, [] => none
  | width + 1, b :: pc => do
    let (high, pc) ← readSize width pc
    pure (b.toNat + 256 * high, pc)

/-- The push of `nSize` bytes at `pc`. -/
def readPush (opcode nSize : Nat) (pc : CScript) : Option ScriptOp :=
  if pc.length < nSize then none
  else some { opcode := opcode, vch := pc.take nSize, pc := pc.drop nSize }

def getOp2 (script : CScript) : Option ScriptOp :=
  match script with
  | [] => none
  | b :: pc =>
    let opcode := b.toNat
    if opcode < OP_PUSHDATA1 then readPush opcode opcode pc
    else if opcode = OP_PUSHDATA1 then do
      let (nSize, pc) ← readSize 1 pc
      readPush opcode nSize pc
    else if opcode = OP_PUSHDATA2 then do
      let (nSize, pc) ← readSize 2 pc
      readPush opcode nSize pc
    else if opcode = OP_PUSHDATA4 then do
      let (nSize, pc) ← readSize 4 pc
      readPush opcode nSize pc
    else some { opcode := opcode, vch := [], pc := pc }

/-! ## Signature operations -/

/-- The loop of `GetSigOpCount(fAccurate)`.  Every instruction takes at least one byte, so the length
of the script bounds the number of turns. -/
def sigOpCountLoop (fAccurate : Bool) : Nat → Nat → CScript → Nat
  | 0, _, _ => 0
  | turns + 1, lastOpcode, pc =>
    match getOp2 pc with
    | none => 0
    | some op =>
      let n :=
        if op.opcode = OP_CHECKSIG ∨ op.opcode = OP_CHECKSIGVERIFY then 1
        else if op.opcode = OP_CHECKMULTISIG ∨ op.opcode = OP_CHECKMULTISIGVERIFY then
          if fAccurate ∧ OP_1 ≤ lastOpcode ∧ lastOpcode ≤ OP_16 then lastOpcode - (OP_1 - 1)
          else 20
        else 0
      n + sigOpCountLoop fAccurate turns op.opcode op.pc

def getSigOpCount (fAccurate : Bool) (script : CScript) : Nat :=
  sigOpCountLoop fAccurate script.length OP_INVALIDOPCODE script

def isPayToScriptHash (script : CScript) : Bool :=
  decide (script.length = 23) && decide ((script.map UInt8.toNat)[0]? = some OP_HASH160) &&
    decide ((script.map UInt8.toNat)[1]? = some 0x14) &&
    decide ((script.map UInt8.toNat)[22]? = some OP_EQUAL)

/-- The last item pushed by a `scriptSig`; `none` when it does not parse or does more than push. -/
def lastPush : Nat → List UInt8 → CScript → Option (List UInt8)
  | 0, data, _ => some data
  | turns + 1, data, pc =>
    if pc.isEmpty then some data
    else
      match getOp2 pc with
      | none => none
      | some op => if OP_16 < op.opcode then none else lastPush turns op.vch op.pc

/-- `GetSigOpCount(scriptSig)` of an output script. -/
def getSigOpCountP2SH (scriptPubKey scriptSig : CScript) : Nat :=
  if !isPayToScriptHash scriptPubKey then getSigOpCount true scriptPubKey
  else
    match lastPush scriptSig.length [] scriptSig with
    | none => 0
    | some data => getSigOpCount true data

def getLegacySigOpCount (tx : CTransaction) : Nat :=
  (tx.vin.map fun txin => getSigOpCount false txin.scriptSig).sum +
    (tx.vout.map fun txout => getSigOpCount false txout.scriptPubKey).sum

/-! ## Pay to public key -/

/-- The key that `Solver` extracts when it reports `TX_PUBKEY`.  A pay-to-script-hash script is taken
out first, and `TX_PUBKEY` is the first template in the scan. -/
def solverPubKey (scriptPubKey : CScript) : Option (List UInt8) :=
  if isPayToScriptHash scriptPubKey then none
  else do
    let key ← getOp2 scriptPubKey
    if 33 ≤ key.vch.length ∧ key.vch.length ≤ 65 then
      let checksig ← getOp2 key.pc
      if checksig.opcode = OP_CHECKSIG ∧ checksig.pc = [] then some key.vch else none
    else none

end Reddcoin
