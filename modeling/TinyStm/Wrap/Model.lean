import TinyStm.Lib.Bytes
import TinyStm.WriteSet

/-!
# Typed and byte-range accesses (`wrappers.c`)

Every access is made of word accesses, which are a parameter. A word pointer is a
word index, so the word that holds byte `addr` is `addr / sizeof(stm_word_t)`. The
conversion unions are bit vectors read and written by lanes; a union that the source
leaves uninitialised starts with an arbitrary content. `sanity_checks` asserts that
`sizeof(stm_word_t)` is 4 or 8.
-/

namespace TinyStm.Wrap

open Bytes

/-- The calls `stm_load`, `stm_store` and `stm_store2` as masked accesses to a memory
of words. -/
structure WordAccess (w : ℕ) where
  State : Type
  load : State → ℕ → BitVec w × State
  store : State → ℕ → BitVec w → State
  store2 : State → ℕ → BitVec w → BitVec w → State
  word : State → ℕ → BitVec w
  load_val : ∀ s a, (load s a).1 = word s a
  load_word : ∀ s a, word (load s a).2 = word s
  store_word : ∀ s a v, word (store s a v) = Function.update (word s) a v
  store2_word : ∀ s a v m, word (store2 s a v m) =
    Function.update (word s) a (mergeBits (word s a) v m)

variable {z : WordSize} (A : WordAccess z.bits)

/-! ### Loads -/

/-- The loop over the first bytes: at most `size` of them, from byte `i` to the end of
the word. The bytes put into `buf` and the size left. -/
def loadFirst (z : WordSize) (val : BitVec z.bits) : ℕ → ℕ → List Byte × ℕ
  | 0, _ => ([], 0)
  | size + 1, i =>
    if i < z.bytes then
      let r := loadFirst z val size (i + 1)
      (byteAt val i :: r.1, r.2)
    else ([], size + 1)

/-- The loop over the last bytes. -/
def loadLast (z : WordSize) (val : BitVec z.bits) : ℕ → ℕ → List Byte
  | 0, _ => []
  | size + 1, i => byteAt val i :: loadLast z val size (i + 1)

/-- The loop over full words, through a word store into `buf` or byte by byte: the
bytes, the size left, the word pointer and the state after it. -/
def loadWords (misaligned : Bool) (size a : ℕ) (s : A.State) : List Byte × ℕ × ℕ × A.State :=
  if z.bytes ≤ size then
    let p := A.load s a
    let bs := if misaligned then toBytes z.bytes p.1 else loadLast z p.1 z.bytes 0
    let r := loadWords misaligned (size - z.bytes) (a + 1) p.2
    (bs ++ r.1, r.2)
  else ([], size, a, s)
termination_by size
decreasing_by
  have := z.bytes_pos
  omega

/-- `stm_load_bytes`: the bytes put into `buf`. -/
def stmLoadBytes (misaligned : Bool) (s : A.State) (addr size : ℕ) : List Byte × A.State :=
  if size = 0 then ([], s)
  else
    let i := addr % z.bytes
    let p := if i ≠ 0 then
        let p := A.load s (addr / z.bytes)
        let r := loadFirst z p.1 size i
        (r.1, r.2, addr / z.bytes + 1, p.2)
      else ([], size, addr / z.bytes, s)
    let r := loadWords A misaligned p.2.1 p.2.2.1 p.2.2.2
    if 0 < r.2.1 then
      let l := A.load r.2.2.2 r.2.2.1
      (p.1 ++ r.1 ++ loadLast z l.1 r.2.1 0, l.2)
    else (p.1 ++ r.1, r.2.2.2)

/-- The word that holds the address, and the lane of `c` bytes in it. -/
def loadLane (k c : ℕ) (s : A.State) (addr : ℕ) : BitVec k × A.State :=
  let p := A.load s (addr / z.bytes)
  (lane k p.1 (addr % z.bytes / c), p.2)

/-- The way through `stm_load_bytes` of the misaligned loads. -/
def loadSplit (k c : ℕ) (misaligned : Bool) (s : A.State) (addr : ℕ) : BitVec k × A.State :=
  let p := stmLoadBytes A misaligned s addr c
  (ofBytes k p.1, p.2)

def stmLoadU8 (s : A.State) (addr : ℕ) : BitVec 8 × A.State := loadLane A 8 1 s addr

def stmLoadU16 (misaligned : Bool) (s : A.State) (addr : ℕ) : BitVec 16 × A.State :=
  if addr % 2 ≠ 0 then loadSplit A 16 2 misaligned s addr
  else loadLane A 16 2 s addr

def stmLoadU32 (misaligned : Bool) (s : A.State) (addr : ℕ) : BitVec 32 × A.State :=
  if addr % 4 ≠ 0 then loadSplit A 32 4 misaligned s addr
  else if z.bytes = 4 then
    let p := A.load s (addr / z.bytes)
    (p.1.setWidth 32, p.2)
  else loadLane A 32 4 s addr

def stmLoadU64 (misaligned : Bool) (junk : BitVec 64) (s : A.State) (addr : ℕ) :
    BitVec 64 × A.State :=
  if addr % 8 ≠ 0 then loadSplit A 64 8 misaligned s addr
  else if z.bytes = 4 then
    let lo := A.load s (addr / z.bytes)
    let hi := A.load lo.2 (addr / z.bytes + 1)
    (setLane (setLane junk 0 (lo.1.setWidth 32)) 1 (hi.1.setWidth 32), hi.2)
  else
    let p := A.load s (addr / z.bytes)
    (p.1.setWidth 64, p.2)

/-! ### Stores -/

/-- The loop over the first bytes of a store: value and mask of the word, and the bytes
of `buf` left. -/
def fillFirst (z : WordSize) : List Byte → ℕ → BitVec z.bits → BitVec z.bits →
    BitVec z.bits × BitVec z.bits × List Byte
  | [], _, val, mask => (val, mask, [])
  | b :: buf, i, val, mask =>
    if i < z.bytes then fillFirst z buf (i + 1) (setByte val i b) (setByte mask i 0xFF)
    else (val, mask, b :: buf)

/-- The loop over the last bytes. -/
def fillLast (z : WordSize) : List Byte → ℕ → BitVec z.bits → BitVec z.bits →
    BitVec z.bits × BitVec z.bits
  | [], _, val, mask => (val, mask)
  | b :: buf, i, val, mask => fillLast z buf (i + 1) (setByte val i b) (setByte mask i 0xFF)

/-- The loop over full words, with `val` as the rounds before left it: the bytes left,
the word pointer and the state. -/
def storeWords (misaligned : Bool) (val : BitVec z.bits) (buf : List Byte) (a : ℕ)
    (s : A.State) : List Byte × ℕ × A.State :=
  if z.bytes ≤ buf.length then
    if misaligned then
      storeWords misaligned val (buf.drop z.bytes) (a + 1)
        (A.store s a (ofBytes z.bits (buf.take z.bytes)))
    else
      let val := (fillLast z (buf.take z.bytes) 0 val 0).1
      storeWords misaligned val (buf.drop z.bytes) (a + 1) (A.store s a val)
  else (buf, a, s)
termination_by buf.length
decreasing_by
  all_goals
    have := z.bytes_pos
    simp only [List.length_drop]
    omega

/-- `stm_store_bytes`; the size is the length of `buf`. -/
def stmStoreBytes (misaligned : Bool) (junk : BitVec z.bits) (s : A.State) (addr : ℕ)
    (buf : List Byte) : A.State :=
  if buf.length = 0 then s
  else
    let i := addr % z.bytes
    let p := if i ≠ 0 then
        let r := fillFirst z buf i 0 0
        (r.1, r.2.2, addr / z.bytes + 1, A.store2 s (addr / z.bytes) r.1 r.2.1)
      else (junk, buf, addr / z.bytes, s)
    let r := storeWords A misaligned p.1 p.2.1 p.2.2.1 p.2.2.2
    if 0 < r.1.length then
      let l := fillLast z r.1 0 0 0
      A.store2 r.2.2 r.2.1 l.1 l.2
    else r.2.2

/-- The loop that fills the mask of the first bytes of `stm_set_bytes`: the mask and the
count left. -/
def maskFirst (z : WordSize) : ℕ → ℕ → BitVec z.bits → BitVec z.bits × ℕ
  | 0, _, mask => (mask, 0)
  | count + 1, i, mask =>
    if i < z.bytes then maskFirst z count (i + 1) (setByte mask i 0xFF) else (mask, count + 1)

def maskLast (z : WordSize) : ℕ → ℕ → BitVec z.bits → BitVec z.bits
  | 0, _, mask => mask
  | count + 1, i, mask => maskLast z count (i + 1) (setByte mask i 0xFF)

/-- The loop that puts `byte` into all bytes of the union, from byte `i` on. -/
def fillAll (z : WordSize) (byte : Byte) : ℕ → ℕ → BitVec z.bits → BitVec z.bits
  | 0, _, val => val
  | n + 1, i, val => fillAll z byte n (i + 1) (setByte val i byte)

def setWords (val : BitVec z.bits) (count a : ℕ) (s : A.State) : ℕ × ℕ × A.State :=
  if z.bytes ≤ count then setWords val (count - z.bytes) (a + 1) (A.store s a val)
  else (count, a, s)
termination_by count
decreasing_by
  have := z.bytes_pos
  omega

/-- `stm_set_bytes`. -/
def stmSetBytes (junk : BitVec z.bits) (s : A.State) (addr : ℕ) (byte : Byte) (count : ℕ) :
    A.State :=
  if count = 0 then s
  else
    let val := fillAll z byte z.bytes 0 junk
    let i := addr % z.bytes
    let p := if i ≠ 0 then
        let r := maskFirst z count i 0
        (r.2, addr / z.bytes + 1, A.store2 s (addr / z.bytes) val r.1)
      else (count, addr / z.bytes, s)
    let r := setWords A val p.1 p.2.1 p.2.2
    if 0 < r.1 then A.store2 r.2.2 r.2.1 val (maskLast z r.1 0 0)
    else r.2.2

/-- A masked store of one lane of `c` bytes. -/
def storeLane {k : ℕ} (c : ℕ) (junk : BitVec z.bits) (s : A.State) (addr : ℕ) (value : BitVec k) :
    A.State :=
  A.store2 s (addr / z.bytes) (setLane junk (addr % z.bytes / c) value)
    (setLane 0 (addr % z.bytes / c) (BitVec.allOnes k))

def stmStoreU8 (junk : BitVec z.bits) (s : A.State) (addr : ℕ) (value : BitVec 8) : A.State :=
  storeLane A 1 junk s addr value

def stmStoreU16 (misaligned : Bool) (junk : BitVec z.bits) (s : A.State) (addr : ℕ)
    (value : BitVec 16) : A.State :=
  if addr % 2 ≠ 0 then stmStoreBytes A misaligned junk s addr (toBytes 2 value)
  else storeLane A 2 junk s addr value

def stmStoreU32 (misaligned : Bool) (junk : BitVec z.bits) (s : A.State) (addr : ℕ)
    (value : BitVec 32) : A.State :=
  if addr % 4 ≠ 0 then stmStoreBytes A misaligned junk s addr (toBytes 4 value)
  else if z.bytes = 4 then A.store s (addr / z.bytes) (value.setWidth z.bits)
  else storeLane A 4 junk s addr value

def stmStoreU64 (misaligned : Bool) (junk : BitVec z.bits) (s : A.State) (addr : ℕ)
    (value : BitVec 64) : A.State :=
  if addr % 8 ≠ 0 then stmStoreBytes A misaligned junk s addr (toBytes 8 value)
  else if z.bytes = 4 then
    let s := A.store s (addr / z.bytes) ((lane 32 value 0).setWidth z.bits)
    A.store s (addr / z.bytes + 1) ((lane 32 value 1).setWidth z.bits)
  else A.store s (addr / z.bytes) (value.setWidth z.bits)

/-! ### C types -/

/-- The types of the accessors; `long` has both sizes, and a `float` or a `double` is its
bit pattern. -/
inductive Ty where
  | u8 | u16 | u32 | u64
  | char | uchar | short | ushort | int | uint
  | long (eight : Bool) | ulong (eight : Bool)
  | float | double
  deriving DecidableEq, Repr

def Ty.Val : Ty → Type
  | .u8 | .uchar => BitVec 8
  | .u16 | .ushort => BitVec 16
  | .u32 | .uint | .float | .ulong false => BitVec 32
  | .u64 | .double | .ulong true => BitVec 64
  | .char => Int8
  | .short => Int16
  | .int | .long false => Int32
  | .long true => Int64

/-- What the compiler leaves in the unions of a call, and how it was built. -/
structure Env (z : WordSize) where
  misaligned : Bool
  junk : BitVec z.bits
  junk64 : BitVec 64

/-- `stm_load_u8`, `stm_load_char` and so on. -/
def loadTy (e : Env z) (s : A.State) (addr : ℕ) : (t : Ty) → t.Val × A.State
  | .u8 | .uchar => stmLoadU8 A s addr
  | .u16 | .ushort => stmLoadU16 A e.misaligned s addr
  | .u32 | .uint | .float | .ulong false => stmLoadU32 A e.misaligned s addr
  | .u64 | .double | .ulong true => stmLoadU64 A e.misaligned e.junk64 s addr
  | .char =>
    let p := stmLoadU8 A s addr
    (Int8.ofBitVec p.1, p.2)
  | .short =>
    let p := stmLoadU16 A e.misaligned s addr
    (Int16.ofBitVec p.1, p.2)
  | .int | .long false =>
    let p := stmLoadU32 A e.misaligned s addr
    (Int32.ofBitVec p.1, p.2)
  | .long true =>
    let p := stmLoadU64 A e.misaligned e.junk64 s addr
    (Int64.ofBitVec p.1, p.2)

def storeTy (e : Env z) (s : A.State) (addr : ℕ) : (t : Ty) → t.Val → A.State
  | .u8, v | .uchar, v => stmStoreU8 A e.junk s addr v
  | .u16, v | .ushort, v => stmStoreU16 A e.misaligned e.junk s addr v
  | .u32, v | .uint, v | .float, v | .ulong false, v => stmStoreU32 A e.misaligned e.junk s addr v
  | .u64, v | .double, v | .ulong true, v => stmStoreU64 A e.misaligned e.junk s addr v
  | .char, v => stmStoreU8 A e.junk s addr (Int8.toBitVec v)
  | .short, v => stmStoreU16 A e.misaligned e.junk s addr (Int16.toBitVec v)
  | .int, v | .long false, v => stmStoreU32 A e.misaligned e.junk s addr (Int32.toBitVec v)
  | .long true, v => stmStoreU64 A e.misaligned e.junk s addr (Int64.toBitVec v)

/-! ### Sequences of accesses -/

inductive Op where
  | load (t : Ty) (addr : ℕ)
  | loadBytes (addr size : ℕ)
  | store (t : Ty) (addr : ℕ) (v : t.Val)
  | storeBytes (addr : ℕ) (buf : List Byte)
  | setBytes (addr : ℕ) (byte : Byte) (count : ℕ)

/-- What a call returns. -/
inductive Out where
  | none
  | val (t : Ty) (v : t.Val)
  | bytes (bs : List Byte)

def call (e : Env z) (s : A.State) : Op → Out × A.State
  | .load t addr => (.val t (loadTy A e s addr t).1, (loadTy A e s addr t).2)
  | .loadBytes addr size =>
    (.bytes (stmLoadBytes A e.misaligned s addr size).1, (stmLoadBytes A e.misaligned s addr size).2)
  | .store t addr v => (.none, storeTy A e s addr t v)
  | .storeBytes addr buf => (.none, stmStoreBytes A e.misaligned e.junk s addr buf)
  | .setBytes addr byte count => (.none, stmSetBytes A e.junk s addr byte count)

/-- A sequence of calls, each with its own environment. -/
def run : List (Env z × Op) → A.State → List Out × A.State
  | [], s => ([], s)
  | (e, op) :: ops, s =>
    let p := call A e s op
    let r := run ops p.2
    (p.1 :: r.1, r.2)

end TinyStm.Wrap
