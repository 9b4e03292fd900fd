import TinyStm.Lib.CText

/-!
# The requests of the clients (Client.c, Server.c)

A client prints a request with `sprintf` into a zeroed buffer of 256 bytes. The server copies the
buffer into the task and takes priority and transaction id from its own copy with `strtok_r`; the
worker parses the task's copy again and calls the manager.
-/

namespace TinyStm.Tpcc

open CText

/-- What `createInstruction` chooses: the transaction and its parameters. The amount of a payment is
a float that holds an integer, the last parameter of `newQuaglia` an `int`. -/
inductive Request
  | newOrder (w d c : BitVec 64)
  | payment (w d c : BitVec 64) (cLast : Text) (hAm : ℤ)
  | ordStatus (w d c : BitVec 64)
  | stockLevel (w d tr : BitVec 64)
  | delivery (w car : BitVec 64)
  | newQuaglia (w d c tr : BitVec 64) (n : BitVec 32)

/-- A call of the worker on the manager. -/
inductive ManagerCall
  | newOrder (w d c : BitVec 64)
  | payment (w d c : BitVec 64) (hAm : ℚ) (cLast : Text)
  | ordStatus (w d c : BitVec 64)
  | stockLevel (w d tr : BitVec 64)
  | delivery (w car : BitVec 64)
  | newQuaglia (w d c tr n : BitVec 64)

def Request.txId : Request → BitVec 64
  | .newOrder .. => 1
  | .payment .. => 2
  | .ordStatus .. => 3
  | .stockLevel .. => 4
  | .delivery .. => 5
  | .newQuaglia .. => 6

def ManagerCall.txId : ManagerCall → ℤ
  | .newOrder .. => 1
  | .payment .. => 2
  | .ordStatus .. => 3
  | .stockLevel .. => 4
  | .delivery .. => 5
  | .newQuaglia .. => 6

/-- `%ld` and `%d`. -/
def ld {w : ℕ} (v : BitVec w) : Text := intText v.toInt

/-- The conversions of a request's format, behind priority and transaction id. -/
def Request.fields : Request → List Text
  | .newOrder w d c => [ld w, ld d, ld c]
  | .payment w d c cLast hAm => [ld w, ld d, ld c, cLast, fixedText hAm]
  | .ordStatus w d c => [ld w, ld d, ld c]
  | .stockLevel w d tr => [ld w, ld d, ld tr]
  | .delivery w car => [ld w, ld car]
  | .newQuaglia w d c tr n => [ld w, ld d, ld c, ld tr, ld n]

/-- The text that `createInstruction` prints. -/
def createInstruction (prio : BitVec 64) (r : Request) : Text :=
  joined (ch ';') (ld prio :: ld r.txId :: r.fields)

/-- The 256 bytes that are sent. -/
def sendbuf (text : Text) : Text := text ++ List.replicate (256 - text.length) 0

/-- The fields of `task_t` that the parsers use. -/
structure TaskArgs where
  arguments : Text
  priority : ℤ
  transaction : ℤ

def clampPriority (numPriorities prio : ℤ) : ℤ :=
  if prio < 0 then 0 else if numPriorities ≤ prio then numPriorities - 1 else prio

def clampTransaction (txid : ℤ) : ℤ := if txid < 1 then 1 else if 6 < txid then 6 else txid

/-- `strtok_r` where the caller stops at NULL; the token is a position in the buffer. -/
def nextToken (t : Tok) : Option (ℕ × Tok) :=
  match strtok (ch ';') t with
  | (some p, t) => some (p, t)
  | (none, _) => none

def nextLong (t : Tok) : Option (BitVec 64 × Tok) := do
  let (p, t) ← nextToken t
  pure (strtol (cstr t.buf p), t)

/-- `server_runMethod` up to the task it inserts, `old` being what the task's buffer held. -/
def serverRunMethod (numPriorities : ℤ) (old recvbuf : Text) : Option TaskArgs := do
  let arguments := strcpy old recvbuf
  let (prio, t) ← nextLong ⟨recvbuf, 0⟩
  let (txid, _) ← nextLong t
  pure ⟨arguments, clampPriority numPriorities prio.toInt, clampTransaction txid.toInt⟩

/-! The cases of the switch in `worker_runMethod`. -/

def caseNewOrder (t : Tok) : Option ManagerCall := do
  let (w, t) ← nextLong t
  let (d, t) ← nextLong t
  let (c, _) ← nextLong t
  pure (.newOrder w d c)

def casePayment (t : Tok) : Option ManagerCall := do
  let (w, t) ← nextLong t
  let (d, t) ← nextLong t
  let (c, t) ← nextLong t
  let (cLast, t) ← nextToken t
  let (token, t) ← nextToken t
  let hAm := strtof (cstr t.buf token)
  -- the name is read where the pointer points, after the last `strtok_r`
  pure (.payment w d c hAm (cstr t.buf cLast))

def caseOrdStatus (t : Tok) : Option ManagerCall := do
  let (w, t) ← nextLong t
  let (d, t) ← nextLong t
  let (c, _) ← nextLong t
  pure (.ordStatus w d c)

def caseStockLevel (t : Tok) : Option ManagerCall := do
  let (w, t) ← nextLong t
  let (d, t) ← nextLong t
  let (tr, _) ← nextLong t
  pure (.stockLevel w d tr)

def caseDelivery (t : Tok) : Option ManagerCall := do
  let (w, t) ← nextLong t
  let (car, _) ← nextLong t
  pure (.delivery w car)

def caseNewQuaglia (t : Tok) : Option ManagerCall := do
  let (w, t) ← nextLong t
  let (d, t) ← nextLong t
  let (c, t) ← nextLong t
  let (tr, t) ← nextLong t
  let (n, _) ← nextLong t
  pure (.newQuaglia w d c tr n)

/-- `worker_runMethod`: the call it makes, if any. -/
def workerRunMethod (newquaglia : Bool) (arguments : Text) : Option ManagerCall := do
  let (_, t) ← nextToken ⟨arguments, 0⟩
  let (idOp, t) ← nextLong t
  match idOp.toInt with
  | 1 => caseNewOrder t
  | 2 => casePayment t
  | 3 => caseOrdStatus t
  | 4 => caseStockLevel t
  | 5 => caseDelivery t
  | 6 => if newquaglia then caseNewQuaglia t else none
  | _ => none

/-- Requests of the build: a name without delimiter or end, an amount a float holds exactly, and
`newQuaglia` only with `NEWQUAGLIA`. -/
def Request.Printable (newquaglia : Bool) : Request → Prop
  | .payment _ _ _ cLast hAm => Field (ch ';') cLast ∧ |hAm| < 2 ^ 24
  | .newQuaglia .. => newquaglia = true
  | _ => True

/-- The call with the same parameters. -/
def Request.call : Request → ManagerCall
  | .newOrder w d c => .newOrder w d c
  | .payment w d c cLast hAm => .payment w d c hAm cLast
  | .ordStatus w d c => .ordStatus w d c
  | .stockLevel w d tr => .stockLevel w d tr
  | .delivery w car => .delivery w car
  | .newQuaglia w d c tr n => .newQuaglia w d c tr (n.signExtend 64)

variable {pre rest f : Text} {fs : List Text} {newquaglia : Bool} {r : Request}

theorem field_ld {w : ℕ} (v : BitVec w) : Field (ch ';') (ld v) := field_intText v.toInt

theorem Request.Printable.fields (h : r.Printable newquaglia) : ∀ f ∈ r.fields, Field (ch ';') f := by
  cases r with
  | payment w d c cLast hAm => simp [Request.fields, field_ld, field_fixedText, h.1]
  | _ => simp [Request.fields, field_ld]

theorem nextToken_tokAt (hf : Field (ch ';') f) :
    nextToken (tokAt (ch ';') pre (f :: fs) rest) =
      some (pre.length, tokAt (ch ';') (passed pre f fs) fs rest) := by
  rw [nextToken, strtok_tokAt hf (by decide)]

theorem nextLong_tokAt {w : ℕ} (hw : w ≤ 64) (v : BitVec w) :
    nextLong (tokAt (ch ';') pre (ld v :: fs) rest) =
      some (v.signExtend 64, tokAt (ch ';') (passed pre (ld v) fs) fs rest) := by
  rw [nextLong, nextToken_tokAt (field_ld v)]
  change some (strtol (cstr _ _), _) = _
  rw [cstr_passed (field_ld v), ld, strtol_toInt hw]

theorem nextLong_tokAt_long (v : BitVec 64) :
    nextLong (tokAt (ch ';') pre (ld v :: fs) rest) =
      some (v, tokAt (ch ';') (passed pre (ld v) fs) fs rest) := by
  rw [nextLong_tokAt (by decide), BitVec.signExtend_eq]

/-- Three longs, as three of the cases read them. -/
theorem threeLongs (call : BitVec 64 → BitVec 64 → BitVec 64 → ManagerCall) (a b c : BitVec 64) :
    (do
      let (a, t) ← nextLong (tokAt (ch ';') pre [ld a, ld b, ld c] rest)
      let (b, t) ← nextLong t
      let (c, _) ← nextLong t
      pure (call a b c)) = some (call a b c) := by
  simp only [nextLong_tokAt_long, Option.bind_eq_bind, Option.bind_some, Option.pure_def]

theorem casePayment_eq (w d c : BitVec 64) {cLast : Text} {hAm : ℤ} (hc : Field (ch ';') cLast)
    (ha : |hAm| < 2 ^ 24) :
    casePayment (tokAt (ch ';') pre [ld w, ld d, ld c, cLast, fixedText hAm] rest) =
      some (.payment w d c hAm cLast) := by
  have hfixed := field_fixedText hAm
  simp only [casePayment, nextLong_tokAt_long, nextToken_tokAt hc, nextToken_tokAt hfixed,
    Option.bind_eq_bind, Option.bind_some, Option.pure_def, Option.some.injEq,
    ManagerCall.payment.injEq, true_and]
  constructor
  · rw [cstr_passed hfixed, strtof_fixedText ha]
  · exact cstr_left hc (fixedText hAm)

theorem caseDelivery_eq (w car : BitVec 64) :
    caseDelivery (tokAt (ch ';') pre [ld w, ld car] rest) = some (.delivery w car) := by
  simp only [caseDelivery, nextLong_tokAt_long, Option.bind_eq_bind, Option.bind_some,
    Option.pure_def]

theorem caseNewQuaglia_eq (w d c tr : BitVec 64) (n : BitVec 32) :
    caseNewQuaglia (tokAt (ch ';') pre [ld w, ld d, ld c, ld tr, ld n] rest) =
      some (.newQuaglia w d c tr (n.signExtend 64)) := by
  have hn : 32 ≤ 64 := by decide
  simp only [caseNewQuaglia, nextLong_tokAt_long, nextLong_tokAt hn, Option.bind_eq_bind,
    Option.bind_some, Option.pure_def]

theorem createInstruction_eq (prio : BitVec 64) (r : Request) :
    (⟨createInstruction prio r ++ 0 :: rest, 0⟩ : Tok) =
      tokAt (ch ';') [] (ld prio :: ld r.txId :: r.fields) rest := rfl

/-- The server's copy. -/
theorem server_parses (prio : BitVec 64) (numPriorities : ℤ) (old : Text) :
    serverRunMethod numPriorities old (createInstruction prio r ++ 0 :: rest) =
      some ⟨strcpy old (createInstruction prio r ++ 0 :: rest),
        clampPriority numPriorities prio.toInt, clampTransaction r.txId.toInt⟩ := by
  rw [serverRunMethod, createInstruction_eq]
  simp only [nextLong_tokAt_long, Option.bind_eq_bind, Option.bind_some, Option.pure_def]

/-- The worker's copy. -/
theorem worker_parses (h : r.Printable newquaglia) (prio : BitVec 64) :
    workerRunMethod newquaglia (createInstruction prio r ++ 0 :: rest) = some r.call := by
  rw [workerRunMethod, createInstruction_eq, nextToken_tokAt (field_ld prio)]
  simp only [nextLong_tokAt_long, Option.bind_eq_bind, Option.bind_some]
  cases r with
  | newOrder w d c => exact threeLongs .newOrder w d c
  | payment w d c cLast hAm => exact casePayment_eq w d c h.1 h.2
  | ordStatus w d c => exact threeLongs .ordStatus w d c
  | stockLevel w d tr => exact threeLongs .stockLevel w d tr
  | delivery w car => exact caseDelivery_eq w car
  | newQuaglia w d c tr n => exact (if_pos h).trans (caseNewQuaglia_eq w d c tr n)

theorem strcpy_sendbuf {text : Text} (h : ∀ b ∈ text, b ≠ 0) (hlen : text.length < 256) (old : Text) :
    sendbuf text = text ++ 0 :: List.replicate (255 - text.length) 0 ∧
      strcpy old (sendbuf text) = text ++ 0 :: old.drop (text.length + 1) := by
  have hbuf : sendbuf text = text ++ 0 :: List.replicate (255 - text.length) 0 := by
    rw [sendbuf, show 256 - text.length = (255 - text.length) + 1 by omega, List.replicate_succ]
  have hstr : cstr (sendbuf text) 0 = text := by
    rw [hbuf]
    exact cstr_append [] h
  exact ⟨hbuf, by rw [strcpy, hstr]⟩

/-- For every request that fits its buffer the server finds the client's priority and transaction,
and the worker makes the call with the client's parameters, of the same kind. -/
theorem format_agrees (newquaglia : Bool) (numPriorities : ℤ) (prio : BitVec 64) (r : Request)
    (hr : r.Printable newquaglia) (hlen : (createInstruction prio r).length < 256) (old : Text) :
    ∃ task, serverRunMethod numPriorities old (sendbuf (createInstruction prio r)) = some task ∧
      task.priority = clampPriority numPriorities prio.toInt ∧
      task.transaction = r.txId.toInt ∧
      workerRunMethod newquaglia task.arguments = some r.call ∧
      r.call.txId = task.transaction := by
  have hfields : ∀ f ∈ ld prio :: ld r.txId :: r.fields, Field (ch ';') f := by
    intro f hf
    rcases List.mem_cons.mp hf with rfl | hf
    · exact field_ld prio
    · rcases List.mem_cons.mp hf with rfl | hf
      · exact field_ld r.txId
      · exact hr.fields f hf
  have hzero : ∀ b ∈ createInstruction prio r, b ≠ 0 := ne_zero_of_mem_joined (by decide) hfields
  have htx : clampTransaction r.txId.toInt = r.txId.toInt := by
    cases r <;> rfl
  have hcall : r.call.txId = r.txId.toInt := by
    cases r <;> rfl
  obtain ⟨hbuf, hcopy⟩ := strcpy_sendbuf hzero hlen old
  refine ⟨⟨strcpy old (sendbuf (createInstruction prio r)), clampPriority numPriorities prio.toInt,
    clampTransaction r.txId.toInt⟩, ?_, rfl, htx, ?_, hcall.trans htx.symm⟩
  · rw [hbuf]
    exact server_parses prio numPriorities old
  · dsimp only
    rw [hcopy]
    exact worker_parses hr prio

theorem format_agrees_payment : ∃ task,
    serverRunMethod 5 [] (sendbuf (createInstruction 0 (.payment 1 3 42 [ch ' '] 4711))) = some task ∧
      task.priority = 0 ∧ task.transaction = 2 ∧
      workerRunMethod false task.arguments = some (.payment 1 3 42 4711 [ch ' ']) := by
  obtain ⟨task, h1, h2, h3, h4, -⟩ := format_agrees false 5 0 (.payment 1 3 42 [ch ' '] 4711)
    ⟨⟨by decide, by decide⟩, by decide⟩ (by decide +kernel) []
  exact ⟨task, h1, h2, h3, h4⟩

end TinyStm.Tpcc
