import Mathlib.Algebra.Group.Nat.Defs
import Mathlib.Data.List.Nodup
import Mathlib.Tactic.Common
import TinyStm.Lib.Bytes

/-!
# The delivery of a tick to user code (`stm_et_callback.S`)

The timer handler pushes the interrupted instruction pointer on the user stack and lets the
thread go on at `stm_revalidate`. The routine saves what a call may change, calls
`stm_extend`, and returns to the interrupted instruction or, when the snapshot is not valid
any more, calls `stm_abort`. The thread-local variables of the library are kept apart from
the rest of memory, and `Fx` is the state that `fxsave` saves.
-/

namespace TinyStm.Trampoline

open Bytes

inductive Reg
  | rax | rbx | rcx | rdx | rsi | rdi | rbp | rsp
  | r8 | r9 | r10 | r11 | r12 | r13 | r14 | r15
  deriving DecidableEq, Repr

structure Flags where
  cf : Bool
  pf : Bool
  af : Bool
  zf : Bool
  sf : Bool
  of : Bool
  deriving DecidableEq, Repr

/-- A user thread. -/
structure State (Fx : Type) where
  reg : Reg → BitVec 64
  rip : BitVec 64
  flags : Flags
  fx : Fx
  mem : ℕ → Byte
  txOn : BitVec 16
  etFxregs : Fx
  threadTx : BitVec 64

inductive Var
  | controlBuffer
  | etFxregs
  | threadTx
  deriving DecidableEq, Repr

inductive Callee
  | stmExtend
  | stmAbort
  deriving DecidableEq, Repr

variable {Fx : Type}

/-- Where the linker and the loader put things, and `stm_extend`, which takes the state at its
entry to the one after its return. -/
structure Env (Fx : Type) where
  stmRevalidate : BitVec 64
  fsBase : BitVec 64
  gottpoff : Var → BitVec 64
  afterExtend : BitVec 64
  afterAbort : BitVec 64
  stmExtend : State Fx → State Fx

/-! ### Instructions -/

def read64 (mem : ℕ → Byte) (a : ℕ) : BitVec 64 := ofBytes 64 (readBytes mem a 8)

def write64 (mem : ℕ → Byte) (a : ℕ) (v : BitVec 64) : ℕ → Byte := writeBytes mem a (toBytes 8 v)

def parity (b : Byte) : Bool := ((List.range 8).countP fun i => b.getLsbD i) % 2 == 0

/-- The flags after `a + b`. -/
def addFlags {w : ℕ} (a b : BitVec w) : Flags where
  cf := decide (2 ^ w ≤ a.toNat + b.toNat)
  pf := parity (byteAt (a + b) 0)
  af := decide (16 ≤ a.toNat % 16 + b.toNat % 16)
  zf := a + b == 0
  sf := (a + b).msb
  of := a.msb == b.msb && (a + b).msb != a.msb

/-- The byte that `lahf` loads: SF, ZF, 0, AF, 0, PF, 1, CF. -/
def Flags.ah (f : Flags) : Byte :=
  BitVec.ofBool f.sf ++ BitVec.ofBool f.zf ++ 0#1 ++ BitVec.ofBool f.af ++ 0#1 ++
    BitVec.ofBool f.pf ++ 1#1 ++ BitVec.ofBool f.cf

/-- The flags that `sahf` loads, and OF, which it leaves alone. -/
def Flags.ofAh (ah : Byte) (of : Bool) : Flags :=
  ⟨ah.getLsbD 0, ah.getLsbD 2, ah.getLsbD 4, ah.getLsbD 6, ah.getLsbD 7, of⟩

inductive Instr
  | push (r : Reg)
  | pop (r : Reg)
  | lahf
  | seto
  | tls (v : Var)
  | movwTxOn (v : BitVec 16)
  | fxsave
  | fxrstor
  | movTx
  | movq (v : BitVec 64) (r : Reg)
  | addb (v : Byte)
  | sahf

def State.set (s : State Fx) (r : Reg) (v : BitVec 64) : State Fx :=
  { s with reg := Function.update s.reg r v }

def State.push (s : State Fx) (v : BitVec 64) : State Fx :=
  let sp := s.reg .rsp - 8
  { s.set .rsp sp with mem := write64 s.mem sp.toNat v }

/-- The value on top of the stack. -/
def State.top (s : State Fx) : BitVec 64 := read64 s.mem (s.reg .rsp).toNat

def State.drop (s : State Fx) : State Fx := s.set .rsp (s.reg .rsp + 8)

/-- One instruction. `tls` is the pair that computes the address of a thread-local variable
in `rax`, and the accesses through `(%rax)` are named after the variable. -/
def exec (env : Env Fx) (s : State Fx) : Instr → State Fx
  | .push r => s.push (s.reg r)
  | .pop r => s.drop.set r s.top
  | .lahf => s.set .rax (setByte (s.reg .rax) 1 s.flags.ah)
  | .seto => s.set .rax (setByte (s.reg .rax) 0 (if s.flags.of then 1 else 0))
  | .tls v => { s.set .rax (env.fsBase + env.gottpoff v) with
      flags := addFlags env.fsBase (env.gottpoff v) }
  | .movwTxOn v => { s with txOn := v }
  | .fxsave => { s with etFxregs := s.fx }
  | .fxrstor => { s with fx := s.etFxregs }
  | .movTx => s.set .rdi s.threadTx
  | .movq v r => s.set r v
  | .addb v =>
    { s.set .rax (setByte (s.reg .rax) 0 (byteAt (s.reg .rax) 0 + v)) with
      flags := addFlags (byteAt (s.reg .rax) 0) v }
  | .sahf => { s with flags := .ofAh (byteAt (s.reg .rax) 1) s.flags.of }

def run (env : Env Fx) (is : List Instr) (s : State Fx) : State Fx := is.foldl (exec env) s

/-! ### The routine -/

/-- Up to the first call. -/
def save : List Instr :=
  [.push .rax, .lahf, .seto, .push .rax, .tls .controlBuffer, .movwTxOn 0,
    .push .rcx, .push .rdx, .push .rsi, .push .rdi, .push .r8, .push .r9, .push .r10, .push .r11,
    .tls .etFxregs, .fxsave, .tls .threadTx, .movTx]

/-- From `still_valid` on, but the `retq`. -/
def restore : List Instr :=
  [.tls .etFxregs, .fxrstor,
    .pop .r11, .pop .r10, .pop .r9, .pop .r8, .pop .rdi, .pop .rsi, .pop .rdx, .pop .rcx,
    .tls .controlBuffer, .movwTxOn 1, .pop .rax, .addb 0x7f, .sahf, .pop .rax]

/-- `test %rax, %rax`; AF is undefined. -/
def testRax (s : State Fx) : State Fx :=
  let v := s.reg .rax
  { s with flags := ⟨false, parity (byteAt v 0), s.flags.af, v == 0, v.msb, false⟩ }

/-- The calls with the stack pointer at their entry, and the state after the `retq`; none when
`stm_abort` was called, which does not return. -/
structure Outcome (Fx : Type) where
  calls : List (Callee × BitVec 64)
  result : Option (State Fx)

/-- `stm_extend` at its entry. -/
def atExtend (env : Env Fx) (s : State Fx) : State Fx := (run env save s).push env.afterExtend

def stmRevalidate (env : Env Fx) (s : State Fx) : Outcome Fx :=
  let e := atExtend env s
  let s := testRax (env.stmExtend e)
  if ¬ s.flags.zf then
    let s := run env restore s
    ⟨[(.stmExtend, e.reg .rsp)], some { s.drop with rip := s.top }⟩
  else
    let a := (exec env s (.movq 7968 .rdi)).push env.afterAbort
    ⟨[(.stmExtend, e.reg .rsp), (.stmAbort, a.reg .rsp)], none⟩

/-- The end of `my_smp_apic_timer_interrupt`: push `regs->ip`, go on at the callback. -/
def deliver (env : Env Fx) (s : State Fx) : State Fx := { s.push s.rip with rip := env.stmRevalidate }

/-! ### Transparency -/

/-- What the System V ABI promises of a function that is entered with an aligned stack: it
returns, keeps the callee-saved registers, and of the memory above its frame changes only
what is its own. `et_fxregs` is not. -/
structure Abi (f : State Fx → State Fx) (owned : ℕ → Prop) : Prop where
  rsp : ∀ s, (s.reg .rsp).toNat % 16 = 8 → (f s).reg .rsp = s.reg .rsp + 8
  saved : ∀ s, (s.reg .rsp).toNat % 16 = 8 → ∀ r ∈ [Reg.rbx, .rbp, .r12, .r13, .r14, .r15],
    (f s).reg r = s.reg r
  mem : ∀ s, (s.reg .rsp).toNat % 16 = 8 → ∀ a, (s.reg .rsp).toNat + 8 ≤ a → ¬ owned a →
    (f s).mem a = s.mem a
  etFxregs : ∀ s, (s.reg .rsp).toNat % 16 = 8 → (f s).etFxregs = s.etFxregs

/-- `t` is the interrupted state `s` again, with ticks enabled. -/
structure Restored (owned : ℕ → Prop) (s t : State Fx) : Prop where
  rip : t.rip = s.rip
  reg : ∀ r, t.reg r = s.reg r
  fx : t.fx = s.fx
  flags : t.flags = s.flags
  mem : ∀ a, (s.reg .rsp).toNat ≤ a → ¬ owned a → t.mem a = s.mem a
  txOn : t.txOn = 1

structure Transparent (env : Env Fx) (owned : ℕ → Prop) (s : State Fx) : Prop where
  aligned : ∀ c ∈ (stmRevalidate env (deliver env s)).calls, c.2.toNat % 16 = 8
  restored : (env.stmExtend (atExtend env (deliver env s))).reg .rax ≠ 0 →
    ∃ t, (stmRevalidate env (deliver env s)).result = some t ∧ Restored owned s t

/-! ### The stack -/

theorem read64_write64 (m : ℕ → Byte) (a : ℕ) (v : BitVec 64) : read64 (write64 m a v) a = v := by
  refine ofBytes_eq_iff (n := 8) rfl fun i hi => ?_
  rw [getD_readBytes _ _ hi, write64, writeBytes_apply, length_toBytes, if_pos (by omega),
    Nat.add_sub_cancel_left, getD_toBytes _ hi]

theorem read64_congr {m m' : ℕ → Byte} {a : ℕ} (h : ∀ c, a ≤ c → c < a + 8 → m c = m' c) :
    read64 m a = read64 m' a := by
  rw [read64, read64, readBytes_congr fun i hi => h (a + i) (by omega) (by omega)]

theorem write64_of_le {m : ℕ → Byte} {a c : ℕ} (v : BitVec 64) (h : a + 8 ≤ c) :
    write64 m a v c = m c := by
  rw [write64, writeBytes_apply, length_toBytes, if_neg (by omega)]

/-- The words from address `a` on, the top of the stack first. -/
def Holds (mem : ℕ → Byte) : ℕ → List (BitVec 64) → Prop
  | _, [] => True
  | a, v :: vs => read64 mem a = v ∧ Holds mem (a + 8) vs

theorem Holds.congr {m m' : ℕ → Byte} {a : ℕ} {vs : List (BitVec 64)} (h : Holds m a vs)
    (hm : ∀ c, a ≤ c → c < a + 8 * vs.length → m' c = m c) : Holds m' a vs := by
  induction vs generalizing a with
  | nil => trivial
  | cons v vs ih =>
    rw [List.length_cons] at hm
    refine ⟨?_, ih h.2 fun c h₁ h₂ => hm c (by omega) (by omega)⟩
    rw [read64_congr fun c h₁ h₂ => hm c h₁ (by omega)]
    exact h.1

theorem reg_pop (env : Env Fx) (s : State Fx) (r : Reg) : (exec env s (.pop r)).reg r = s.top :=
  Function.update_self _ _ _

/-- In state `s` the words `vs` are pushed below the stack of `s₀`, which is as it was. -/
structure Frame (owned : ℕ → Prop) (s₀ : State Fx) (vs : List (BitVec 64)) (s : State Fx) : Prop where
  rsp : (s.reg .rsp).toNat + 8 * vs.length = (s₀.reg .rsp).toNat
  holds : Holds s.mem (s.reg .rsp).toNat vs
  above : ∀ a, (s₀.reg .rsp).toNat ≤ a → ¬ owned a → s.mem a = s₀.mem a

/-- The parts of a state that pushes and pops leave alone. -/
structure Same (s t : State Fx) : Prop where
  flags : t.flags = s.flags
  fx : t.fx = s.fx
  txOn : t.txOn = s.txOn
  etFxregs : t.etFxregs = s.etFxregs

theorem Same.trans {s t u : State Fx} (h : Same s t) (h' : Same t u) : Same s u :=
  ⟨h'.flags.trans h.flags, h'.fx.trans h.fx, h'.txOn.trans h.txOn, h'.etFxregs.trans h.etFxregs⟩

namespace Frame

variable {owned : ℕ → Prop} {s₀ s t : State Fx} {vs ws : List (BitVec 64)} {v : BitVec 64}

theorem of_same (h : Frame owned s₀ vs s) (hrsp : t.reg .rsp = s.reg .rsp) (hmem : t.mem = s.mem) :
    Frame owned s₀ vs t := by
  refine ⟨hrsp ▸ h.rsp, ?_, hmem ▸ h.above⟩
  rw [hrsp, hmem]
  exact h.holds

theorem set (h : Frame owned s₀ vs s) {r : Reg} (hr : r ≠ .rsp) (v : BitVec 64) :
    Frame owned s₀ vs (s.set r v) :=
  h.of_same (Function.update_of_ne hr.symm _ _) rfl

theorem push (h : Frame owned s₀ vs s) (hroom : 8 * (vs.length + 1) ≤ (s₀.reg .rsp).toNat)
    (v : BitVec 64) : Frame owned s₀ (v :: vs) (s.push v) := by
  have hrsp := h.rsp
  have hlt := (s.reg .rsp).isLt
  have hsub : (s.reg .rsp - 8).toNat = (s.reg .rsp).toNat - 8 := by
    rw [BitVec.toNat_sub]
    simp only [BitVec.reduceToNat]
    omega
  have hreg : (s.push v).reg .rsp = s.reg .rsp - 8 := rfl
  refine ⟨?_, ⟨?_, ?_⟩, fun a ha hown => ?_⟩
  · rw [hreg, hsub, List.length_cons]
    omega
  · rw [hreg]
    exact read64_write64 _ _ _
  · rw [hreg, hsub, Nat.sub_add_cancel (by omega)]
    refine h.holds.congr fun c h₁ h₂ => ?_
    show write64 s.mem (s.reg .rsp - 8).toNat v c = s.mem c
    rw [hsub]
    exact write64_of_le v (by omega)
  · rw [← h.above a ha hown]
    show write64 s.mem (s.reg .rsp - 8).toNat v a = s.mem a
    rw [hsub]
    exact write64_of_le v (by omega)

theorem top (h : Frame owned s₀ (v :: vs) s) : s.top = v := h.holds.1

theorem drop (h : Frame owned s₀ (v :: vs) s) : Frame owned s₀ vs s.drop := by
  have hrsp := h.rsp
  have hlt := (s₀.reg .rsp).isLt
  rw [List.length_cons] at hrsp
  have hadd : (s.reg .rsp + 8).toNat = (s.reg .rsp).toNat + 8 := by
    rw [BitVec.toNat_add]
    simp only [BitVec.reduceToNat]
    omega
  have hreg : s.drop.reg .rsp = s.reg .rsp + 8 := rfl
  refine ⟨by rw [hreg, hadd]; omega, ?_, h.above⟩
  rw [hreg, hadd]
  exact h.holds.2

/-- Registers are pushed one after the other. -/
theorem pushAll (env : Env Fx) (rs : List Reg) (h : Frame owned s₀ vs s)
    (hroom : 8 * (vs.length + rs.length) ≤ (s₀.reg .rsp).toNat) (hrsp : .rsp ∉ rs) :
    Frame owned s₀ ((rs.map s.reg).reverse ++ vs) (run env (rs.map .push) s) ∧
      (∀ r, r ≠ .rsp → (run env (rs.map .push) s).reg r = s.reg r) ∧
      Same s (run env (rs.map .push) s) := by
  induction rs generalizing s vs with
  | nil => exact ⟨h, fun _ _ => rfl, ⟨rfl, rfl, rfl, rfl⟩⟩
  | cons r rs ih =>
    simp only [List.length_cons] at hroom
    have hone : Frame owned s₀ (s.reg r :: vs) (exec env s (.push r)) := h.push (by omega) _
    have hsame : Same s (exec env s (.push r)) := ⟨rfl, rfl, rfl, rfl⟩
    have hkeep : ∀ q, q ≠ .rsp → (exec env s (.push r)).reg q = s.reg q := fun q hq =>
      Function.update_of_ne hq _ _
    obtain ⟨h₁, h₂, h₃⟩ := ih hone (by simp only [List.length_cons]; omega)
      fun hm => hrsp (List.mem_cons_of_mem r hm)
    have hmap : rs.map (exec env s (.push r)).reg = rs.map s.reg :=
      List.map_congr_left fun q hq => hkeep q fun he => hrsp (he ▸ List.mem_cons_of_mem r hq)
    refine ⟨?_, fun q hq => (h₂ q hq).trans (hkeep q hq), hsame.trans h₃⟩
    rw [hmap] at h₁
    simpa [run] using h₁

/-- Words are popped into registers one after the other. -/
theorem popAll (env : Env Fx) (rs : List Reg) (h : Frame owned s₀ (vs ++ ws) s)
    (hlen : rs.length = vs.length) (hrsp : .rsp ∉ rs) (hnd : rs.Nodup) :
    Frame owned s₀ ws (run env (rs.map .pop) s) ∧
      rs.map (run env (rs.map .pop) s).reg = vs ∧
      (∀ r, r ≠ .rsp → r ∉ rs → (run env (rs.map .pop) s).reg r = s.reg r) ∧
      Same s (run env (rs.map .pop) s) := by
  induction rs generalizing s vs with
  | nil =>
    obtain rfl := List.length_eq_zero_iff.mp hlen.symm
    exact ⟨h, rfl, fun _ _ _ => rfl, ⟨rfl, rfl, rfl, rfl⟩⟩
  | cons r rs ih =>
    obtain ⟨v, vs, rfl⟩ := List.exists_cons_of_length_eq_add_one (hlen.symm.trans (List.length_cons ..))
    have hr : r ≠ .rsp := fun he => hrsp (he ▸ List.mem_cons_self)
    obtain ⟨hnr, hnd⟩ := List.nodup_cons.mp hnd
    have hone : Frame owned s₀ (vs ++ ws) (exec env s (.pop r)) :=
      h.drop.of_same (Function.update_of_ne hr.symm _ _) rfl
    have hsame : Same s (exec env s (.pop r)) := ⟨rfl, rfl, rfl, rfl⟩
    have hself : (exec env s (.pop r)).reg r = v := (reg_pop env s r).trans h.top
    have hkeep : ∀ q, q ≠ .rsp → q ≠ r → (exec env s (.pop r)).reg q = s.reg q := fun q hq hqr =>
      (Function.update_of_ne hqr _ _).trans (Function.update_of_ne hq _ _)
    obtain ⟨h₁, h₂, h₃, h₄⟩ := ih hone (by simpa using hlen)
      (fun hm => hrsp (List.mem_cons_of_mem r hm)) hnd
    refine ⟨h₁, ?_, fun q hq hm => ?_, hsame.trans h₄⟩
    · exact List.cons_eq_cons.mpr ⟨(h₃ r hr hnr).trans hself, h₂⟩
    · rw [List.mem_cons, not_or] at hm
      exact (h₃ q hq hm.2).trans (hkeep q hq hm.1)

end Frame

/-! ### The flags -/

theorem byteAt_setByte (v : BitVec 64) (b : Byte) {i j : ℕ} (hi : i < 8) :
    byteAt (setByte v j b) i = if i = j then b else byteAt v i := by
  rw [setByte, byteAt_setLane (c := 1) (n := 8) rfl rfl v j b hi]
  by_cases h : i = j
  · subst h
    rw [if_pos (by omega), if_pos rfl]
    simp [byteAt, lane]
  · rw [if_neg (by omega), if_neg h]

theorem ofAh_ah (f : Flags) : Flags.ofAh f.ah f.of = f := by
  rcases f with ⟨cf, pf, af, zf, sf, of⟩
  revert cf pf af zf sf of
  decide

/-- The word that is pushed for the flags. -/
def Flags.word (f : Flags) (rax : BitVec 64) : BitVec 64 :=
  setByte (setByte rax 1 f.ah) 0 (if f.of then 1 else 0)

/-- `addb $0x7f` overflows exactly when OF was set, and `sahf` restores the other flags. -/
theorem flags_restored (env : Env Fx) (f : Flags) (rax : BitVec 64) (s : State Fx)
    (h : s.reg .rax = f.word rax) : (run env [.addb 0x7f, .sahf] s).flags = f := by
  have hal : byteAt (s.reg .rax) 0 = if f.of then 1 else 0 := by
    rw [h, Flags.word, byteAt_setByte _ _ (by decide), if_pos rfl]
  have hah : byteAt (s.reg .rax) 1 = f.ah := by
    rw [h, Flags.word, byteAt_setByte _ _ (by decide), if_neg (by decide),
      byteAt_setByte _ _ (by decide), if_pos rfl]
  have hkeep : byteAt ((exec env s (.addb 0x7f)).reg .rax) 1 = f.ah := by
    show byteAt (setByte (s.reg .rax) 0 (byteAt (s.reg .rax) 0 + 0x7f)) 1 = f.ah
    rw [byteAt_setByte _ _ (by decide), if_neg (by decide), hah]
  have hof : (exec env s (.addb 0x7f)).flags.of = f.of := by
    show (addFlags (byteAt (s.reg .rax) 0) 0x7f).of = f.of
    rw [hal]
    cases f.of <;> decide
  show Flags.ofAh (byteAt ((exec env s (.addb 0x7f)).reg .rax) 1)
    (exec env s (.addb 0x7f)).flags.of = f
  rw [hkeep, hof, ofAh_ah]

/-! ### The routine -/

section Routine

variable {env : Env Fx} {owned : ℕ → Prop} {s : State Fx}

/-- The words on the stack when `stm_extend` is called, the last pushed first. -/
def saved (s : State Fx) : List (BitVec 64) :=
  [s.reg .r11, s.reg .r10, s.reg .r9, s.reg .r8, s.reg .rdi, s.reg .rsi, s.reg .rdx, s.reg .rcx,
    s.flags.word (s.reg .rax), s.reg .rax, s.rip]

/-- The instructions before the other registers are pushed. -/
def saveFlags : List Instr :=
  [.push .rax, .lahf, .seto, .push .rax, .tls .controlBuffer, .movwTxOn 0]

def saveRegs : List Reg := [.rcx, .rdx, .rsi, .rdi, .r8, .r9, .r10, .r11]

theorem run_append (is js : List Instr) (s : State Fx) :
    run env (is ++ js) s = run env js (run env is s) :=
  List.foldl_append

theorem saveFlags_reg (s : State Fx) {r : Reg} (h₁ : r ≠ .rax) (h₂ : r ≠ .rsp) :
    (run env saveFlags s).reg r = s.reg r := by
  simp [run, saveFlags, exec, State.push, State.set, h₁, h₂]

theorem frame_saveFlags (env : Env Fx) (owned : ℕ → Prop) (hroom : 96 ≤ (s.reg .rsp).toNat) :
    Frame owned s [s.flags.word (s.reg .rax), s.reg .rax, s.rip]
      (run env saveFlags (deliver env s)) := by
  have h₀ : Frame owned s [] s := ⟨rfl, trivial, fun _ _ _ => rfl⟩
  have hrip : Frame owned s [s.rip] (s.push s.rip) := h₀.push (by simp; omega) s.rip
  have hrax : Frame owned s [s.reg .rax, s.rip] ((deliver env s).push (s.reg .rax)) :=
    (hrip.of_same rfl rfl : Frame owned s [s.rip] (deliver env s)).push (by simp; omega) _
  have hflags := (hrax.set (r := .rax) (by decide) (setByte (s.reg .rax) 1 s.flags.ah)).set
    (r := .rax) (by decide) (s.flags.word (s.reg .rax))
  have hword := (hflags.push (by simp; omega) (s.flags.word (s.reg .rax))).set (r := .rax)
    (by decide) (env.fsBase + env.gottpoff .controlBuffer)
  exact hword.of_same rfl rfl

/-- The instructions between the pushes and the call. -/
def saveFx : List Instr := [.tls .etFxregs, .fxsave, .tls .threadTx, .movTx]

theorem saveFx_reg (s : State Fx) {r : Reg} (h₁ : r ≠ .rax) (h₂ : r ≠ .rdi) :
    (run env saveFx s).reg r = s.reg r := by
  simp [run, saveFx, exec, State.set, h₁, h₂]

theorem saveFx_mem (s : State Fx) : (run env saveFx s).mem = s.mem := rfl

theorem saveFx_etFxregs (s : State Fx) : (run env saveFx s).etFxregs = s.fx := rfl

theorem saveFlags_fx (s : State Fx) : (run env saveFlags s).fx = s.fx := rfl

theorem frame_save (env : Env Fx) (owned : ℕ → Prop) (hroom : 96 ≤ (s.reg .rsp).toNat) :
    Frame owned s (saved s) (run env save (deliver env s)) ∧
      (∀ r ∈ [Reg.rbx, .rbp, .r12, .r13, .r14, .r15],
        (run env save (deliver env s)).reg r = s.reg r) ∧
      (run env save (deliver env s)).etFxregs = s.fx := by
  have hsplit : save = saveFlags ++ saveRegs.map .push ++ saveFx := rfl
  rw [hsplit, run_append, run_append]
  have hflags := frame_saveFlags env owned hroom
  have hdel : ∀ r, r ≠ .rsp → (deliver env s).reg r = s.reg r := fun r hr =>
    Function.update_of_ne hr _ _
  obtain ⟨h₁, h₂, h₃⟩ := hflags.pushAll env saveRegs (by simp [saveRegs]; omega) (by decide)
  have hvals : saveRegs.map (run env saveFlags (deliver env s)).reg = saveRegs.map s.reg := by
    refine List.map_congr_left fun r hr => ?_
    have hne : r ≠ .rax ∧ r ≠ .rsp := by
      constructor <;> (rintro rfl; exact absurd hr (by decide))
    exact (saveFlags_reg _ hne.1 hne.2).trans (hdel r hne.2)
  rw [hvals] at h₁
  refine ⟨h₁.of_same (saveFx_reg _ (by decide) (by decide)) (saveFx_mem _),
    fun r hr => ?_, ?_⟩
  · have hne : (r ≠ .rax ∧ r ≠ .rdi) ∧ r ≠ .rsp := by
      refine ⟨⟨?_, ?_⟩, ?_⟩ <;> (rintro rfl; exact absurd hr (by decide))
    rw [saveFx_reg _ hne.1.1 hne.1.2, h₂ r hne.2, saveFlags_reg _ hne.1.1 hne.2, hdel r hne.2]
  · rw [saveFx_etFxregs, h₃.fx, saveFlags_fx]
    rfl

/-- At the entry of `stm_extend` twelve words are on the stack. -/
theorem frame_atExtend (env : Env Fx) (owned : ℕ → Prop) (hroom : 96 ≤ (s.reg .rsp).toNat) :
    Frame owned s (env.afterExtend :: saved s) (atExtend env (deliver env s)) :=
  (frame_save env owned hroom).1.push (by simp [saved]; omega) env.afterExtend

theorem atExtend_rsp (env : Env Fx) (hroom : 96 ≤ (s.reg .rsp).toNat) :
    ((atExtend env (deliver env s)).reg .rsp).toNat + 96 = (s.reg .rsp).toNat :=
  (frame_atExtend env (fun _ => False) hroom).rsp

/-- The stack after the return of `stm_extend`. -/
theorem frame_extended (habi : Abi env.stmExtend owned) (hroom : 96 ≤ (s.reg .rsp).toNat)
    (hfree : ∀ a, (s.reg .rsp).toNat ≤ a + 96 → a < (s.reg .rsp).toNat → ¬ owned a)
    (hal : (s.reg .rsp).toNat % 16 = 8) :
    Frame owned s (saved s) (env.stmExtend (atExtend env (deliver env s))) := by
  have he := frame_atExtend env owned hroom
  have hrsp := atExtend_rsp env hroom
  have hal' : ((atExtend env (deliver env s)).reg .rsp).toNat % 16 = 8 := by omega
  have hpop := he.drop
  have hret := habi.rsp _ hal'
  have hmem := habi.mem _ hal'
  have hdrop : (atExtend env (deliver env s)).drop.reg .rsp =
      (env.stmExtend (atExtend env (deliver env s))).reg .rsp := hret.symm
  have hnat := hpop.rsp
  have hlen : (saved s).length = 11 := rfl
  rw [hdrop, hlen] at hnat
  refine ⟨by rw [hlen]; exact hnat, ?_, fun a ha hown => ?_⟩
  · have hholds := hpop.holds
    rw [hdrop] at hholds
    refine hholds.congr fun c h₁ h₂ => hmem c (by omega) ?_
    rw [hlen] at h₂
    exact hfree c (by omega) (by omega)
  · exact (hmem a (by omega) hown).trans (he.above a ha hown)

def restoreFx : List Instr := [.tls .etFxregs, .fxrstor]

def restoreRegs : List Reg := [.r11, .r10, .r9, .r8, .rdi, .rsi, .rdx, .rcx]

/-- The instructions after the other registers are popped. -/
def restoreFlags : List Instr :=
  [.tls .controlBuffer, .movwTxOn 1, .pop .rax, .addb 0x7f, .sahf, .pop .rax]

theorem restoreFx_reg (t : State Fx) {r : Reg} (h : r ≠ .rax) :
    (run env restoreFx t).reg r = t.reg r := by
  simp [run, restoreFx, exec, State.set, h]

theorem restoreFx_mem (t : State Fx) : (run env restoreFx t).mem = t.mem := rfl

theorem restoreFx_fx (t : State Fx) : (run env restoreFx t).fx = t.etFxregs := rfl

theorem restoreFlags_reg (t : State Fx) {r : Reg} (h₁ : r ≠ .rax) (h₂ : r ≠ .rsp) :
    (run env restoreFlags t).reg r = t.reg r := by
  simp [run, restoreFlags, exec, State.drop, State.set, h₁, h₂]

theorem restoreFlags_txOn (t : State Fx) : (run env restoreFlags t).txOn = 1 := rfl

theorem restoreFlags_fx (t : State Fx) : (run env restoreFlags t).fx = t.fx := rfl

/-- The flags are in place before `rax` is popped over their word. -/
theorem frame_restoreFlags (env : Env Fx) {f : Flags} {rax rip : BitVec 64} {t : State Fx}
    (h : Frame owned s [f.word rax, rax, rip] t) :
    Frame owned s [rip] (run env restoreFlags t) ∧ (run env restoreFlags t).flags = f ∧
      (run env restoreFlags t).reg .rax = rax := by
  have hctl : Frame owned s [f.word rax, rax, rip]
      (run env [.tls .controlBuffer, .movwTxOn 1] t) :=
    (h.set (r := .rax) (by decide) (env.fsBase + env.gottpoff .controlBuffer)).of_same rfl rfl
  generalize hu : run env [.tls .controlBuffer, .movwTxOn 1] t = u at hctl
  have hword : (exec env u (.pop .rax)).reg .rax = f.word rax := (reg_pop env u .rax).trans hctl.top
  have hpop : Frame owned s [rax, rip] (exec env u (.pop .rax)) :=
    hctl.drop.set (r := .rax) (by decide) _
  generalize hv : exec env u (.pop .rax) = v at hword hpop
  have hflags := flags_restored env f rax v hword
  have hadd : Frame owned s [rax, rip] (run env [.addb 0x7f, .sahf] v) :=
    (hpop.set (r := .rax) (by decide) (setByte (v.reg .rax) 0 (byteAt (v.reg .rax) 0 + 0x7f))).of_same rfl rfl
  generalize hx : run env [.addb 0x7f, .sahf] v = x at hflags hadd
  have hrun : run env restoreFlags t = exec env x (.pop .rax) := by
    rw [← hx, ← hv, ← hu]
    rfl
  rw [hrun]
  exact ⟨hadd.drop.set (r := .rax) (by decide) _, hflags, (reg_pop env x .rax).trans hadd.top⟩

/-- From a stack that holds what was saved, the routine gets back to the interrupted state. -/
theorem frame_restore (env : Env Fx) {t : State Fx} (h : Frame owned s (saved s) t)
    (hsaved : ∀ r ∈ [Reg.rbx, .rbp, .r12, .r13, .r14, .r15], t.reg r = s.reg r)
    (hfx : t.etFxregs = s.fx) :
    Frame owned s [s.rip] (run env restore t) ∧ (run env restore t).flags = s.flags ∧
      (∀ r, r ≠ .rsp → (run env restore t).reg r = s.reg r) ∧
      (run env restore t).fx = s.fx ∧ (run env restore t).txOn = 1 := by
  have hsplit : restore = restoreFx ++ restoreRegs.map .pop ++ restoreFlags := rfl
  rw [hsplit, run_append, run_append]
  have hstart : Frame owned s
      (restoreRegs.map s.reg ++ [s.flags.word (s.reg .rax), s.reg .rax, s.rip])
      (run env restoreFx t) := h.of_same (restoreFx_reg t (by decide)) (restoreFx_mem t)
  obtain ⟨h₁, h₂, h₃, h₄⟩ := hstart.popAll env restoreRegs rfl (by decide) (by decide)
  have hfx' := h₄.fx
  rw [restoreFx_fx, hfx] at hfx'
  have hregs := List.map_inj_left.mp h₂
  generalize run env (restoreRegs.map .pop) (run env restoreFx t) = u at h₁ h₃ hfx' hregs ⊢
  obtain ⟨hframe, hflags, hrax⟩ := frame_restoreFlags env h₁
  refine ⟨hframe, hflags, fun r hrsp => ?_, (restoreFlags_fx u).trans hfx', restoreFlags_txOn u⟩
  by_cases hr : r = .rax
  · subst hr
    exact hrax
  · rw [restoreFlags_reg _ hr hrsp]
    by_cases hm : r ∈ restoreRegs
    · exact hregs r hm
    · rw [h₃ r hrsp hm, restoreFx_reg t hr]
      refine hsaved r ?_
      revert hrsp hr hm
      cases r <;> decide

theorem restored_of_frame {u : State Fx} (h : Frame owned s [s.rip] u) (hflags : u.flags = s.flags)
    (hreg : ∀ r, r ≠ .rsp → u.reg r = s.reg r) (hfx : u.fx = s.fx) (htx : u.txOn = 1) :
    Restored owned s { u.drop with rip := u.top } := by
  refine ⟨h.top, fun r => ?_, hfx, hflags, h.drop.above, htx⟩
  by_cases hrsp : r = .rsp
  · subst hrsp
    exact BitVec.eq_of_toNat_eq h.drop.rsp
  · exact (Function.update_of_ne hrsp _ _).trans (hreg r hrsp)

/-! ### Transparency -/

theorem push_etFxregs (s : State Fx) (v : BitVec 64) : (s.push v).etFxregs = s.etFxregs := rfl

theorem atExtend_etFxregs (env : Env Fx) (s : State Fx) :
    (atExtend env s).etFxregs = (run env save s).etFxregs := push_etFxregs _ _

theorem atExtend_reg (env : Env Fx) (s : State Fx) {r : Reg} (h : r ≠ .rsp) :
    (atExtend env s).reg r = (run env save s).reg r :=
  Function.update_of_ne h _ _

/-- The snapshot is still valid. -/
theorem revalidate_valid {env : Env Fx} {s : State Fx}
    (h : (env.stmExtend (atExtend env s)).reg .rax ≠ 0) :
    stmRevalidate env s = ⟨[(.stmExtend, (atExtend env s).reg .rsp)],
      some { (run env restore (testRax (env.stmExtend (atExtend env s)))).drop with
        rip := (run env restore (testRax (env.stmExtend (atExtend env s)))).top }⟩ := by
  have hzf : (testRax (env.stmExtend (atExtend env s))).flags.zf = false := by
    simpa [testRax] using h
  unfold stmRevalidate
  dsimp only
  rw [hzf]
  rfl

/-- It is not, and `stm_abort` is called in the place of `stm_extend`. -/
theorem revalidate_invalid {env : Env Fx} {s : State Fx}
    (h : (env.stmExtend (atExtend env s)).reg .rax = 0) :
    (stmRevalidate env s).calls = [(.stmExtend, (atExtend env s).reg .rsp),
      (.stmAbort, (env.stmExtend (atExtend env s)).reg .rsp - 8)] := by
  have hzf : (testRax (env.stmExtend (atExtend env s))).flags.zf = true := by
    simpa [testRax] using h
  unfold stmRevalidate
  dsimp only
  rw [hzf]
  rfl

theorem calls_head (env : Env Fx) (s : State Fx) :
    (.stmExtend, (atExtend env s).reg .rsp) ∈ (stmRevalidate env s).calls := by
  by_cases h : (env.stmExtend (atExtend env s)).reg .rax = 0
  · rw [revalidate_invalid h]
    exact List.mem_cons_self
  · rw [revalidate_valid h]
    exact List.mem_cons_self

/-- Both calls are made with the stack pointer 96 below the interrupted one. -/
theorem calls_aligned (habi : Abi env.stmExtend owned) (hroom : 96 ≤ (s.reg .rsp).toNat)
    (hal : (s.reg .rsp).toNat % 16 = 8) :
    ∀ c ∈ (stmRevalidate env (deliver env s)).calls, c.2.toNat % 16 = 8 := by
  have hrsp := atExtend_rsp env hroom
  have hal' : ((atExtend env (deliver env s)).reg .rsp).toNat % 16 = 8 := by omega
  intro c hc
  by_cases h : (env.stmExtend (atExtend env (deliver env s))).reg .rax = 0
  · rw [revalidate_invalid h, habi.rsp _ hal', BitVec.add_sub_cancel] at hc
    simp only [List.mem_cons, List.not_mem_nil, or_false] at hc
    rcases hc with rfl | rfl <;> exact hal'
  · rw [revalidate_valid h] at hc
    rw [List.mem_singleton.mp hc]
    exact hal'

/-- A tick is transparent to the interrupted code exactly when the stack pointer that it finds
is 8 modulo 16. -/
theorem tick_transparent_iff (env : Env Fx) (owned : ℕ → Prop) (s : State Fx)
    (habi : Abi env.stmExtend owned) (hroom : 96 ≤ (s.reg .rsp).toNat)
    (hfree : ∀ a, (s.reg .rsp).toNat ≤ a + 96 → a < (s.reg .rsp).toNat → ¬ owned a) :
    Transparent env owned s ↔ (s.reg .rsp).toNat % 16 = 8 := by
  have hrsp := atExtend_rsp env hroom
  constructor
  · intro h
    have := h.aligned _ (calls_head env (deliver env s))
    dsimp only at this
    omega
  · intro hal
    refine ⟨calls_aligned habi hroom hal, fun hvalid => ⟨_, by rw [revalidate_valid hvalid], ?_⟩⟩
    have hal' : ((atExtend env (deliver env s)).reg .rsp).toNat % 16 = 8 := by omega
    have hframe := frame_extended habi hroom hfree hal
    obtain ⟨-, hkeep, hfx⟩ := frame_save env owned hroom
    have hsaved : ∀ r ∈ [Reg.rbx, .rbp, .r12, .r13, .r14, .r15],
        (env.stmExtend (atExtend env (deliver env s))).reg r = s.reg r := by
      intro r hr
      have hne : r ≠ .rsp := by
        rintro rfl
        exact absurd hr (by decide)
      rw [habi.saved _ hal' r hr, atExtend_reg env _ hne, hkeep r hr]
    have hfx' : (env.stmExtend (atExtend env (deliver env s))).etFxregs = s.fx := by
      rw [habi.etFxregs _ hal', atExtend_etFxregs, hfx]
    generalize env.stmExtend (atExtend env (deliver env s)) = t at hframe hsaved hfx'
    have htest : Frame owned s (saved s) (testRax t) := hframe.of_same rfl rfl
    obtain ⟨h₁, h₂, h₃, h₄, h₅⟩ := frame_restore env htest hsaved hfx'
    exact restored_of_frame h₁ h₂ h₃ h₄ h₅

end Routine

/-- A `stm_extend` that finds the snapshot valid and changes nothing else. -/
def validExtend (s : State Unit) : State Unit := { s.drop.set .rax 1 with rip := s.top }

theorem validExtend_abi : Abi validExtend fun _ => False where
  rsp _ _ := rfl
  saved s _ r hr := by
    simp only [List.mem_cons, List.not_mem_nil, or_false] at hr
    rcases hr with rfl | rfl | rfl | rfl | rfl | rfl <;> rfl
  mem _ _ _ _ _ := rfl
  etFxregs _ _ := rfl

def loaded : Env Unit := ⟨4194304, 8192, fun _ => 16, 4194400, 4194500, validExtend⟩

/-- A thread that is interrupted with the stack pointer `sp`. -/
def interrupted (sp : BitVec 64) : State Unit where
  reg r := if r = .rsp then sp else 7
  rip := 4195000
  flags := ⟨true, false, false, true, false, true⟩
  fx := ()
  mem _ := 0
  txOn := 1
  etFxregs := ()
  threadTx := 65536

theorem interrupted_aligned : Transparent loaded (fun _ => False) (interrupted 0x7fff0008) :=
  (tick_transparent_iff loaded (fun _ => False) (interrupted 0x7fff0008) validExtend_abi (by decide)
    fun _ _ _ h => h).mpr (by decide)

/-- With a stack pointer that is a multiple of 16, as it is in the body of a function,
`stm_extend` is entered with a stack that is not aligned. -/
theorem interrupted_misaligned :
    ((stmRevalidate loaded (deliver loaded (interrupted 0x7fff0000))).calls.map fun c =>
      c.2.toNat % 16) = [0] ∧
    ¬ Transparent loaded (fun _ => False) (interrupted 0x7fff0000) := by
  have hvalid : (loaded.stmExtend (atExtend loaded (deliver loaded (interrupted 0x7fff0000)))).reg
      .rax ≠ 0 := by
    show (validExtend _).reg .rax ≠ 0
    exact (by decide : (1 : BitVec 64) ≠ 0)
  have hrsp := atExtend_rsp loaded (s := interrupted 0x7fff0000) (by decide)
  have hsp : ((interrupted 0x7fff0000).reg .rsp).toNat = 0x7fff0000 := rfl
  have hmod : ((atExtend loaded (deliver loaded (interrupted 0x7fff0000))).reg .rsp).toNat % 16 = 0 := by
    omega
  constructor
  · rw [revalidate_valid hvalid]
    simpa using hmod
  · intro h
    have := h.aligned _ (calls_head loaded _)
    dsimp only at this
    omega

end TinyStm.Trampoline
