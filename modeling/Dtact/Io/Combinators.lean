import Mathlib.Data.List.Basic
import Dtact.Lib.Transition

/-!
# The combinators on byte streams

`copy`, `BufReader` and `BufWriter` over streams that answer each call as they like: with an error,
with 0 or with a count up to the length of the buffer. A tap on a stream records what passes.
-/

namespace Dtact.Combinators

open Transition

/-- What may be read from. A call gets a buffer and leaves one of the same length, the first `n`
bytes of which have been read if it returns `Ok(n)`. -/
structure AsyncRead (ρ ε : Type) where
  read : ρ → List UInt8 → Except ε Nat × List UInt8 × ρ
  length_read : ∀ {r buf res buf' r'}, read r buf = (res, buf', r') → buf'.length = buf.length
  le_length : ∀ {r buf n buf' r'}, read r buf = (.ok n, buf', r') → n ≤ buf.length

/-- What may be written to. A call that returns `Ok(n)` has accepted the first `n` bytes of the
buffer, and one that fails none. -/
structure AsyncWrite (ω ε : Type) where
  write : ω → List UInt8 → Except ε Nat × ω
  le_length : ∀ {w buf n w'}, write w buf = (.ok n, w') → n ≤ buf.length

variable {ρ ω δ ε : Type}

/-- What the calls of a reader returned, the latest first. -/
abbrev ReadLog (ε : Type) := List (Except ε (List UInt8))

/-- The reader with a log of its calls. -/
def AsyncRead.tapped (R : AsyncRead ρ ε) : AsyncRead (ρ × ReadLog ε) ε where
  read r buf :=
    match R.read r.1 buf with
    | (.ok n, buf', r') => (.ok n, buf', r', .ok (buf'.take n) :: r.2)
    | (.error e, buf', r') => (.error e, buf', r', .error e :: r.2)
  length_read h := by
    split at h <;> (cases h; exact R.length_read ‹_›)
  le_length h := by
    split at h <;> cases h
    exact R.le_length ‹_›

def obtained : ReadLog ε → List UInt8
  | [] => []
  | .ok bytes :: log => obtained log ++ bytes
  | .error _ :: log => obtained log

/-- The writer with the bytes it has accepted. -/
def AsyncWrite.tapped (W : AsyncWrite ω ε) : AsyncWrite (ω × List UInt8) ε where
  write w buf :=
    match W.write w.1 buf with
    | (.ok n, w') => (.ok n, w', w.2 ++ buf.take n)
    | (.error e, w') => (.error e, w', w.2)
  le_length h := by
    split at h <;> cases h
    exact W.le_length ‹_›

variable {W : AsyncWrite ω ε} {w w' : ω × List UInt8} {buf : List UInt8}

theorem AsyncWrite.tapped_ok {n : Nat} (h : W.tapped.write w buf = (.ok n, w')) :
    W.write w.1 buf = (.ok n, w'.1) ∧ w'.2 = w.2 ++ buf.take n := by
  simp only [tapped] at h
  split at h <;> cases h
  next hwrite => exact ⟨hwrite, rfl⟩

theorem AsyncWrite.tapped_error {e : ε} (h : W.tapped.write w buf = (.error e, w')) :
    W.write w.1 buf = (.error e, w'.1) ∧ w'.2 = w.2 := by
  simp only [tapped] at h
  split at h <;> cases h
  next hwrite => exact ⟨hwrite, rfl⟩

/-- The writer with a log of its answers, the latest first. -/
def AsyncWrite.logged (W : AsyncWrite ω ε) : AsyncWrite (ω × List (Except ε Nat)) ε where
  write w buf := ((W.write w.1 buf).1, (W.write w.1 buf).2, (W.write w.1 buf).1 :: w.2)
  le_length h := by
    simp only [Prod.mk.injEq] at h
    exact W.le_length (Prod.ext h.1 rfl)

/-- Every call with something to write accepts a part of it. -/
def AsyncWrite.Progresses (W : AsyncWrite ω ε) : Prop :=
  ∀ w buf, buf ≠ [] → ∃ n w', W.write w buf = (.ok (n + 1), w')

theorem AsyncWrite.Progresses.tapped (h : W.Progresses) : W.tapped.Progresses := by
  intro w buf hne
  obtain ⟨n, w', hwrite⟩ := h w.1 buf hne
  exact ⟨n, (w', w.2 ++ buf.take (n + 1)), by simp only [AsyncWrite.tapped, hwrite]⟩

theorem AsyncWrite.Progresses.logged (h : W.Progresses) : W.logged.Progresses := by
  intro w buf hne
  obtain ⟨n, w', hwrite⟩ := h w.1 buf hne
  exact ⟨n, (w', .ok (n + 1) :: w.2), by simp only [AsyncWrite.logged, hwrite]⟩

/-! ## Handing over a buffer -/

/-- The errors of a call that writes: the one of the stream, or `ErrorKind::WriteZero`. -/
inductive WriteError (ε : Type)
  | stream (e : ε)
  | writeZero (message : String)
deriving DecidableEq

/-- Write `data` from index `written` on, in as many calls as it takes; `zero` is the text of the
error for a call that reports 0. -/
def writeAll (W : AsyncWrite ω ε) (zero : String) (data : List UInt8) (written : Nat) (w : ω) :
    Except (WriteError ε) Nat × ω :=
  if written < data.length then
    match W.write w (data.drop written) with
    | (.error e, w') => (.error (.stream e), w')
    | (.ok 0, w') => (.error (.writeZero zero), w')
    | (.ok (n + 1), w') => writeAll W zero data (written + (n + 1)) w'
  else (.ok written, w)
termination_by data.length - written

/-- The stream takes all of `data`: none of its answers is an error or 0. -/
inductive Takes (W : AsyncWrite ω ε) : ω → List UInt8 → Prop
  | done {w : ω} : Takes W w []
  | some {w w' : ω} {n : Nat} {data : List UInt8} : W.write w data = (.ok (n + 1), w') →
      Takes W w' (data.drop (n + 1)) → Takes W w data

theorem takes_iff {w : ω} {data : List UInt8} (hne : data ≠ []) :
    Takes W w data ↔
      ∃ n w', W.write w data = (.ok (n + 1), w') ∧ Takes W w' (data.drop (n + 1)) := by
  constructor
  · rintro (_ | ⟨hwrite, htakes⟩)
    · exact absurd rfl hne
    · exact ⟨_, _, hwrite, htakes⟩
  · rintro ⟨n, w', hwrite, htakes⟩
    exact .some hwrite htakes

/-- What the loop has done when it returns: the stream has accepted the first `k` bytes of what was
left. -/
structure Handed (data : List UInt8) (written : Nat) (before after : List UInt8)
    (res : Except (WriteError ε) Nat) (k : Nat) : Prop where
  accepted : after = before ++ (data.drop written).take k
  ok : ∀ n, res = .ok n → n = data.length ∧ k = data.length - written
  error : ∀ e, res = .error e → k < data.length - written

theorem writeAll_tapped (W : AsyncWrite ω ε) (zero : String) (data : List UInt8) (written : Nat)
    (w : ω × List UInt8) (hle : written ≤ data.length) :
    ∃ k, Handed data written w.2 (writeAll W.tapped zero data written w).2.2
      (writeAll W.tapped zero data written w).1 k := by
  fun_induction writeAll W.tapped zero data written w with
  | case1 written w hlt e w' hwrite =>
    exact ⟨0, by simp [(AsyncWrite.tapped_error hwrite).2], nofun, fun _ _ => by omega⟩
  | case2 written w hlt w' hwrite =>
    exact ⟨0, by simp [(AsyncWrite.tapped_ok hwrite).2], nofun, fun _ _ => by omega⟩
  | case3 written w hlt n w' hwrite ih =>
    have hn := W.tapped.le_length hwrite
    rw [List.length_drop] at hn
    obtain ⟨k, haccepted, hok, herror⟩ := ih (by omega)
    refine ⟨n + 1 + k, ?_, fun m hm => ?_, fun e he => ?_⟩
    · rw [haccepted, (AsyncWrite.tapped_ok hwrite).2, List.append_assoc, List.take_add,
        List.drop_drop]
    · have := hok m hm
      omega
    · have := herror e he
      omega
  | case4 written w hge =>
    exact ⟨0, by simp, fun n hn => by cases hn; omega, nofun⟩

/-- The loop returns `Ok` if the stream takes everything. -/
theorem writeAll_isOk (W : AsyncWrite ω ε) (zero : String) (data : List UInt8) (written : Nat)
    (w : ω) : (writeAll W zero data written w).1.isOk ↔ Takes W w (data.drop written) := by
  have hne {written : Nat} (hlt : written < data.length) : data.drop written ≠ [] := by
    rwa [ne_eq, List.drop_eq_nil_iff, not_le]
  fun_induction writeAll W zero data written w with
  | case1 written w hlt e w' hwrite | case2 written w hlt w' hwrite =>
    simp [takes_iff (hne hlt), hwrite, Except.isOk, Except.toBool]
  | case3 written w hlt n w' hwrite ih =>
    simp [takes_iff (hne hlt), hwrite, ih, List.drop_drop]
  | case4 written w hge =>
    rw [List.drop_eq_nil_of_le (not_lt.mp hge)]
    exact iff_of_true rfl .done

theorem writeAll_progresses (h : W.Progresses) (zero : String) (data : List UInt8) (written : Nat)
    (w : ω) : ∃ n w', writeAll W zero data written w = (.ok n, w') := by
  fun_induction writeAll W zero data written w with
  | case1 written w hlt e w' hwrite | case2 written w hlt w' hwrite =>
    have hne : data.drop written ≠ [] := by rwa [ne_eq, List.drop_eq_nil_iff, not_le]
    obtain ⟨n, w'', hok⟩ := h w _ hne
    cases hwrite.symm.trans hok
  | case3 written w hlt n w' hwrite ih => exact ih
  | case4 written w hge => exact ⟨written, w, rfl⟩

/-- The error that an answer of the stream leads to. -/
def refusal (zero : String) : Except ε Nat → Option (WriteError ε)
  | .error e => some (.stream e)
  | .ok 0 => some (.writeZero zero)
  | .ok (_ + 1) => none

def refusals (zero : String) (answers : List (Except ε Nat)) : List (WriteError ε) :=
  answers.filterMap (refusal zero)

def errors {α : Type} : Except (WriteError ε) α → List (WriteError ε)
  | .error e => [e]
  | .ok _ => []

theorem AsyncWrite.logged_write {v v' : (ω × List (Except ε Nat)) × List UInt8}
    {res : Except ε Nat} (h : W.logged.tapped.write v buf = (res, v')) :
    v'.1.2 = res :: v.1.2 := by
  have hlogged : W.logged.write v.1 buf = (res, v'.1) := by
    cases res with
    | error e => exact (AsyncWrite.tapped_error h).1
    | ok n => exact (AsyncWrite.tapped_ok h).1
  simp only [logged, Prod.ext_iff] at hlogged
  rw [← hlogged.2.2, hlogged.1]

/-- The loop fails with the first answer that is an error or 0, and only then. -/
theorem writeAll_refusals (W : AsyncWrite ω ε) (zero : String) (data : List UInt8) (written : Nat)
    (v : (ω × List (Except ε Nat)) × List UInt8) {res : Except (WriteError ε) Nat}
    {v' : (ω × List (Except ε Nat)) × List UInt8}
    (h : writeAll W.logged.tapped zero data written v = (res, v')) :
    refusals zero v'.1.2 = errors res ++ refusals zero v.1.2 := by
  fun_induction writeAll W.logged.tapped zero data written v with
  | case1 written v hlt e w' hwrite | case2 written v hlt w' hwrite =>
    cases h
    rw [AsyncWrite.logged_write hwrite]
    rfl
  | case3 written v hlt n w' hwrite ih =>
    rw [ih h, AsyncWrite.logged_write hwrite]
    rfl
  | case4 written v hge =>
    cases h
    rfl

/-- Once the stream has accepted a part of `data`, it takes the rest. -/
def Steady (W : AsyncWrite ω ε) (w : ω) (data : List UInt8) : Prop :=
  ∀ n w', W.write w data = (.ok (n + 1), w') → Takes W w' (data.drop (n + 1))

/-- A loop that fails has handed over nothing only if it has failed at once. -/
theorem writeAll_steady {zero : String} {data : List UInt8} {e : WriteError ε}
    (h : writeAll W.tapped zero data 0 w = (.error e, w')) :
    w'.2 = w.2 ↔ Steady W.tapped w data := by
  rw [writeAll] at h
  split at h
  · simp only [List.drop_zero, Nat.zero_add] at h
    split at h
    · next hwrite =>
      cases h
      exact iff_of_true (AsyncWrite.tapped_error hwrite).2 (by simp [Steady, hwrite])
    · next hwrite =>
      cases h
      refine iff_of_true ?_ (by simp [Steady, hwrite])
      simpa using (AsyncWrite.tapped_ok hwrite).2
    · next n w₁ hwrite =>
      have hle := W.tapped.le_length hwrite
      obtain ⟨k, haccepted, -, -⟩ := writeAll_tapped W zero data (n + 1) w₁ hle
      refine iff_of_false (fun heq => ?_) fun hsteady => ?_
      · rw [h, heq, (AsyncWrite.tapped_ok hwrite).2] at haccepted
        have hlength := congrArg List.length haccepted
        simp only [List.length_append, List.length_take] at hlength
        omega
      · have hok := (writeAll_isOk W.tapped zero data (n + 1) w₁).mpr (hsteady n w₁ hwrite)
        rw [h] at hok
        cases hok
  · cases h

/-! ## `copy` -/

inductive CopyError (δ ε : Type)
  | reader (e : δ)
  | writer (e : WriteError ε)
deriving DecidableEq

/-- The text of the error for a writer that reports 0. -/
def copyZero : String := "dtact-io: copy's writer reported 0 bytes written for a nonempty buffer"

/-- `copy` with its buffer and the bytes counted so far, for at most `fuel` rounds. -/
def copyLoop (R : AsyncRead ρ δ) (W : AsyncWrite ω ε) :
    Nat → List UInt8 → UInt64 → ρ → ω → Option (Except (CopyError δ ε) UInt64 × ρ × ω)
  | 0, _, _, _, _ => none
  | fuel + 1, buf, total, r, w =>
    match R.read r buf with
    | (.error e, _, r') => some (.error (.reader e), r', w)
    | (.ok 0, _, r') => some (.ok total, r', w)
    | (.ok (n + 1), buf', r') =>
      match writeAll W copyZero (buf'.take (n + 1)) 0 w with
      | (.error e, w') => some (.error (.writer e), r', w')
      | (.ok written, w') => copyLoop R W fuel buf' (total + .ofNat written) r' w'

def copy (R : AsyncRead ρ δ) (W : AsyncWrite ω ε) (fuel : Nat) (r : ρ) (w : ω) :
    Option (Except (CopyError δ ε) UInt64 × ρ × ω) :=
  copyLoop R W fuel (List.replicate 8192 0) 0 r w

/-- The reader delivers these chunks when it is read with this buffer again and again, and then
reports 0 or an error. -/
inductive Delivers (R : AsyncRead ρ δ) : List UInt8 → ρ → List (List UInt8) → Option δ → Prop
  | eof {buf buf' : List UInt8} {r r' : ρ} : R.read r buf = (.ok 0, buf', r') →
      Delivers R buf r [] none
  | error {buf buf' : List UInt8} {r r' : ρ} {e : δ} : R.read r buf = (.error e, buf', r') →
      Delivers R buf r [] (some e)
  | chunk {buf buf' : List UInt8} {r r' : ρ} {n : Nat} {chunks : List (List UInt8)}
      {last : Option δ} : R.read r buf = (.ok (n + 1), buf', r') → Delivers R buf' r' chunks last →
      Delivers R buf r (buf'.take (n + 1) :: chunks) last

/-- The writer's error that `copy` returns, if any. -/
def CopyError.ofWriter : Except (CopyError δ ε) UInt64 → List (WriteError ε)
  | .error (.writer e) => [e]
  | _ => []

theorem CopyError.mem_ofWriter {e : WriteError ε} {res : Except (CopyError δ ε) UInt64} :
    e ∈ ofWriter res ↔ res = .error (.writer e) := by
  rcases res with (e' | e') | n <;> simp [ofWriter, eq_comm]

/-- What `copy` has done when it returns; `before` and `after` are the bytes the writer has
accepted, `asked` and `answered` its answers. -/
structure Copied (bytes : List UInt8) (last : Option δ) (total : UInt64) (before after : List UInt8)
    (asked answered : List (Except ε Nat)) (res : Except (CopyError δ ε) UInt64) : Prop where
  ok : ∀ n, res = .ok n → last = none ∧ after = before ++ bytes ∧ n = total + .ofNat bytes.length
  accepted : ∃ accepted, accepted <+: bytes ∧ after = before ++ accepted
  reader : ∀ e, res = .error (.reader e) → last = some e ∧ after = before ++ bytes
  writer : refusals copyZero answered = CopyError.ofWriter res ++ refusals copyZero asked

theorem copyLoop_returns {R : AsyncRead ρ δ} {r : ρ} {chunks : List (List UInt8)} {last : Option δ}
    (h : Delivers R buf r chunks last) (total : UInt64)
    (v : (ω × List (Except ε Nat)) × List UInt8) :
    ∃ res r' v', (∀ fuel ≥ chunks.length,
        copyLoop R W.logged.tapped (fuel + 1) buf total r v = some (res, r', v')) ∧
      Copied chunks.flatten last total v.2 v'.2 v.1.2 v'.1.2 res := by
  induction h generalizing total v with
  | @eof buf buf' r r' hread =>
    refine ⟨.ok total, r', v, fun fuel _ => by simp only [copyLoop, hread], ?_⟩
    exact ⟨fun n hn => by cases hn; simp, ⟨[], List.prefix_rfl, by simp⟩, nofun, rfl⟩
  | @error buf buf' r r' e hread =>
    refine ⟨.error (.reader e), r', v, fun fuel _ => by simp only [copyLoop, hread], ?_⟩
    exact ⟨nofun, ⟨[], List.prefix_rfl, by simp⟩, fun e' he => by cases he; simp, rfl⟩
  | @chunk buf buf' r r' n chunks last hread hrest ih =>
    simp only [copyLoop, hread, List.flatten_cons]
    generalize buf'.take (n + 1) = data
    obtain ⟨k, haccepted, hok, -⟩ := writeAll_tapped W.logged copyZero data 0 v (Nat.zero_le _)
    rcases hall : writeAll W.logged.tapped copyZero data 0 v with ⟨e | written, v'⟩
    · rw [hall] at haccepted
      refine ⟨_, _, _, fun _ _ => rfl, nofun, ⟨data.take k, ?_, haccepted⟩, nofun,
        writeAll_refusals W copyZero data 0 v hall⟩
      exact (List.take_prefix k data).trans (List.prefix_append data _)
    · rw [hall] at haccepted hok
      obtain ⟨rfl, rfl⟩ := hok written rfl
      have hdata : v'.2 = v.2 ++ data := by simpa using haccepted
      obtain ⟨res, r'', v'', hloop, hbytes, ⟨more, hmore, hafter⟩, hreader, hwriter⟩ :=
        ih (total + .ofNat data.length) v'
      refine ⟨res, r'', v'', fun fuel hfuel => ?_, fun m hm => ?_, ?_, fun e he => ?_, ?_⟩
      · obtain ⟨fuel, rfl⟩ := Nat.exists_eq_add_of_le' (Nat.one_le_of_lt hfuel)
        exact hloop fuel (Nat.le_of_succ_le_succ hfuel)
      · obtain ⟨hlast, hafter, htotal⟩ := hbytes m hm
        rw [hafter, hdata, htotal]
        simp [hlast, List.append_assoc, UInt64.add_assoc]
      · refine ⟨data ++ more, (List.prefix_append_right_inj data).mpr hmore, ?_⟩
        rw [hafter, hdata, List.append_assoc]
      · obtain ⟨hlast, hafter⟩ := hreader e he
        exact ⟨hlast, by rw [hafter, hdata, List.append_assoc]⟩
      · rw [hwriter, writeAll_refusals W copyZero data 0 v hall]
        rfl

/-- A writer that always accepts something never makes `copy` fail. -/
theorem copyLoop_progresses {R : AsyncRead ρ δ} (h : W.Progresses) {fuel : Nat} {total : UInt64}
    {r r' : ρ} {w w' : ω} {res : Except (CopyError δ ε) UInt64}
    (hcopy : copyLoop R W fuel buf total r w = some (res, r', w')) (e : WriteError ε) :
    res ≠ .error (.writer e) := by
  fun_induction copyLoop R W fuel buf total r w with
  | case1 => cases hcopy
  | case2 | case3 =>
    cases hcopy
    rintro ⟨⟩
  | case4 fuel buf total r w n buf' r' hread e' w' hall =>
    obtain ⟨m, w'', hok⟩ := writeAll_progresses h copyZero (buf'.take (n + 1)) 0 w
    cases hall.symm.trans hok
  | case5 fuel buf total r w n buf' r' hread written w' hall ih => exact ih hcopy

/-- **`copy` transfers the bytes of the reader.** From every reader that reports 0 or an error after
finitely many chunks, to every writer. It returns an error of the writer exactly if a call of the
writer has failed so or reported 0, and `Ok` if the reader comes to its end and the writer accepts
something of whatever it is given. The count is a `u64`. -/
theorem copy_transfers {R : AsyncRead ρ δ} {W : AsyncWrite ω ε} {r : ρ} {chunks : List (List UInt8)}
    {last : Option δ} (h : Delivers R (List.replicate 8192 0) r chunks last) (w : ω) :
    ∃ res r' w' answers accepted, (∀ fuel > chunks.length,
        copy R W.logged.tapped fuel r ((w, []), []) = some (res, r', (w', answers), accepted)) ∧
      (∀ total, res = .ok total →
        last = none ∧ accepted = chunks.flatten ∧ total = .ofNat chunks.flatten.length) ∧
      (∀ e, res = .error e → accepted <+: chunks.flatten) ∧
      (∀ e, res = .error (.reader e) → last = some e ∧ accepted = chunks.flatten) ∧
      (∀ e, res = .error (.writer e) ↔ e ∈ refusals copyZero answers) ∧
      (W.Progresses → last = none → res = .ok (.ofNat chunks.flatten.length)) := by
  obtain ⟨res, r', ⟨⟨w', answers⟩, accepted⟩, hloop, hok, ⟨more, hpre, hafter⟩, hreader, hwriter⟩ :=
    copyLoop_returns (W := W) h 0 ((w, []), [])
  have hok (total) (htotal : res = .ok total) :
      last = none ∧ accepted = chunks.flatten ∧ total = .ofNat chunks.flatten.length := by
    simpa using hok total htotal
  have hcopy (fuel) (hfuel : fuel > chunks.length) :
      copy R W.logged.tapped fuel r ((w, []), []) = some (res, r', (w', answers), accepted) := by
    obtain ⟨fuel, rfl⟩ := Nat.exists_eq_add_of_le' (Nat.one_le_of_lt hfuel)
    exact hloop fuel (Nat.le_of_lt_succ hfuel)
  obtain rfl : accepted = more := hafter
  refine ⟨res, r', w', answers, accepted, hcopy, hok, fun _ _ => hpre, hreader, fun e => ?_,
    fun hprogress hlast => ?_⟩
  · have hrefusals : refusals copyZero answers = CopyError.ofWriter res ++ [] := hwriter
    rw [hrefusals, List.append_nil, CopyError.mem_ofWriter]
  · cases res with
    | ok total => rw [(hok total rfl).2.2]
    | error e =>
      cases e with
      | reader e => cases hlast.symm.trans (hreader e rfl).1
      | writer e =>
        have hrun := hcopy _ (Nat.lt_succ_self _)
        exact absurd rfl (copyLoop_progresses hprogress.logged.tapped hrun e)

/-- A stream that follows a script: an error, or a count that is cut down to what is there. -/
def scripted : AsyncWrite (List (Option Nat)) Unit where
  write
    | [], buf => (.ok buf.length, [])
    | none :: rest, _ => (.error (), rest)
    | some n :: rest, buf => (.ok (min n buf.length), rest)
  le_length {w buf n w'} h := by
    split at h <;> cases h <;> omega

def ofChunks : AsyncRead (List (List UInt8)) Unit where
  read
    | [], buf => (.ok 0, buf, [])
    | chunk :: rest, buf =>
      (.ok (min chunk.length buf.length), chunk.take buf.length ++ buf.drop chunk.length, rest)
  length_read {r buf _ _ _} h := by
    split at h <;> cases h <;> simp; omega
  le_length {r buf _ _ _} h := by
    split at h <;> cases h <;> omega

theorem delivers_ofChunks {chunks : List (List UInt8)}
    (h : ∀ chunk ∈ chunks, chunk ≠ [] ∧ chunk.length ≤ buf.length) :
    Delivers ofChunks buf chunks chunks none := by
  induction chunks generalizing buf with
  | nil => exact .eof rfl
  | cons chunk chunks ih =>
    obtain ⟨hne, hle⟩ := h chunk List.mem_cons_self
    obtain ⟨n, hn⟩ := Nat.exists_eq_add_one_of_ne_zero (mt List.length_eq_zero_iff.mp hne)
    have hread : ofChunks.read (chunk :: chunks) buf =
        (.ok (n + 1), chunk ++ buf.drop (n + 1), chunks) := by
      rw [← hn]
      simp only [ofChunks, Nat.min_eq_left hle, List.take_of_length_le hle]
    have hrest : ∀ c ∈ chunks, c ≠ [] ∧ c.length ≤ (chunk ++ buf.drop (n + 1)).length := by
      intro c hc
      have hc := h c (List.mem_cons_of_mem chunk hc)
      simp only [List.length_append, List.length_drop]
      exact ⟨hc.1, by omega⟩
    have hchunk := Delivers.chunk hread (ih hrest)
    rwa [← hn, List.take_left] at hchunk

def twoAtATime : AsyncWrite Unit Unit where
  write _ buf := (.ok (min 2 buf.length), ())
  le_length h := by
    cases h
    exact Nat.min_le_right ..

theorem twoAtATime_progresses : twoAtATime.Progresses := by
  intro _ buf hne
  obtain ⟨n, hn⟩ := Nat.exists_eq_add_one_of_ne_zero (mt List.length_eq_zero_iff.mp hne)
  exact ⟨min 1 n, (), by simp only [twoAtATime, hn]; congr 2; omega⟩

/-- Two chunks to a stream that accepts two bytes and then fails, and to one that goes on. -/
theorem copy_transfers_two :
    (∃ r' w', copy ofChunks scripted.logged.tapped 3 [[1, 2, 3], [4]] (([some 2, none], []), []) =
      some (.error (.writer (.stream ())), r', (w', [.error (), .ok 2]), [1, 2]) ∧
        ([1, 2] : List UInt8) <+: [1, 2, 3, 4]) ∧
    ∃ r' w' answers, copy ofChunks twoAtATime.logged.tapped 3 [[1, 2, 3], [4]] (((), []), []) =
      some (.ok 4, r', (w', answers), [1, 2, 3, 4]) := by
  have hdelivers :
      Delivers ofChunks (List.replicate 8192 0) [[1, 2, 3], [4]] [[1, 2, 3], [4]] none :=
    delivers_ofChunks (by rw [List.length_replicate]; decide)
  constructor
  · obtain ⟨res, r', w', answers, accepted, hcopy, -, herror, -⟩ :=
      copy_transfers (W := scripted) hdelivers [some 2, none]
    have heq : (copy ofChunks scripted.logged.tapped 3 [[1, 2, 3], [4]]
        (([some 2, none], []), [])).map (fun p => (p.1, p.2.2.1.2, p.2.2.2)) =
          some (.error (.writer (.stream ())), [.error (), .ok 2], [1, 2]) := by decide +kernel
    have hcopy := hcopy 3 (by decide)
    simp only [hcopy, Option.map_some, Option.some.injEq, Prod.mk.injEq] at heq
    obtain ⟨rfl, rfl, rfl⟩ := heq
    exact ⟨r', w', hcopy, herror _ rfl⟩
  · obtain ⟨res, r', w', answers, accepted, hcopy, hok, -, -, -, hprogress⟩ :=
      copy_transfers (W := twoAtATime) hdelivers ()
    obtain rfl := hprogress twoAtATime_progresses rfl
    obtain ⟨-, rfl, -⟩ := hok _ rfl
    exact ⟨r', w', answers, hcopy 3 (by decide)⟩

/-! ## `BufReader` -/

/-- The indices are in order and in the buffer. -/
structure BufReader (ρ : Type) where
  inner : ρ
  buf : List UInt8
  pos : Nat
  filled : Nat
  pos_le : pos ≤ filled
  filled_le : filled ≤ buf.length

namespace BufReader

def withCapacity (capacity : Nat) (inner : ρ) : BufReader ρ where
  inner := inner
  buf := List.replicate (max capacity 1) 0
  pos := 0
  filled := 0
  pos_le := Nat.le_refl 0
  filled_le := Nat.zero_le _

/-- `buf[pos..filled]` -/
def available (s : BufReader ρ) : List UInt8 := (s.buf.take s.filled).drop s.pos

/-- Read into the internal buffer. If the stream fails, the indices stay as they are. -/
def refill (R : AsyncRead ρ ε) (s : BufReader ρ) : Except ε Nat × BufReader ρ :=
  match h : R.read s.inner s.buf with
  | (.error e, buf, inner) =>
    (.error e, { s with inner, buf, filled_le := (R.length_read h).symm ▸ s.filled_le })
  | (.ok n, buf, inner) =>
    (.ok n, ⟨inner, buf, 0, n, Nat.zero_le n, (R.length_read h).symm ▸ R.le_length h⟩)

theorem length_available (s : BufReader ρ) : s.available.length = s.filled - s.pos := by
  rw [available, List.length_drop, List.length_take, Nat.min_eq_left s.filled_le]

theorem available_eq_nil (s : BufReader ρ) : s.available = [] ↔ s.pos = s.filled := by
  have hle := s.pos_le
  rw [← List.length_eq_zero_iff, length_available]
  omega

/-- Hand out up to `len` of the buffered bytes. -/
def take (len : Nat) (s : BufReader ρ) : List UInt8 × BufReader ρ :=
  (s.available.take len,
    { s with
      pos := s.pos + min s.available.length len
      pos_le := by
        have hle := s.pos_le
        rw [length_available]
        omega })

/-- `read` with a buffer of `len` bytes; it returns the bytes it has stored in the buffer. -/
def read (R : AsyncRead ρ ε) (len : Nat) (s : BufReader ρ) :
    Except ε (List UInt8) × BufReader ρ :=
  if s.pos = s.filled then
    match s.refill R with
    | (.error e, s') => (.error e, s')
    | (.ok 0, s') => (.ok [], s')
    | (.ok (_ + 1), s') => (.ok (s'.take len).1, (s'.take len).2)
  else (.ok (s.take len).1, (s.take len).2)

theorem take_available (len : Nat) (s : BufReader ρ) :
    (s.take len).1 ++ (s.take len).2.available = s.available := by
  have hdrop : (s.take len).2.available = s.available.drop len := by
    simp only [take, available, ← List.drop_drop]
    rw [← available]
    rcases Nat.le_total s.available.length len with hle | hle
    · rw [Nat.min_eq_left hle, List.drop_length, List.drop_eq_nil_of_le hle]
    · rw [Nat.min_eq_right hle]
  rw [hdrop]
  exact List.take_append_drop len s.available

theorem take_ne_nil {len : Nat} {s : BufReader ρ} (hne : s.available ≠ []) (hlen : 0 < len) :
    (s.take len).1 ≠ [] := by
  simp only [take, ne_eq, List.take_eq_nil_iff]
  rintro (rfl | hnil)
  · exact absurd hlen (lt_irrefl 0)
  · exact hne hnil

section

variable {R : AsyncRead ρ ε} {s s' : BufReader (ρ × ReadLog ε)}

theorem refill_error {e : ε} (h : s.refill R.tapped = (.error e, s')) :
    s'.pos = s.pos ∧ s'.filled = s.filled ∧ s'.inner.2 = .error e :: s.inner.2 := by
  unfold refill at h
  split at h <;> cases h
  next hread =>
    refine ⟨rfl, rfl, ?_⟩
    simp only [AsyncRead.tapped] at hread
    split at hread <;> cases hread
    rfl

theorem refill_ok {n : Nat} (h : s.refill R.tapped = (.ok n, s')) :
    s'.available.length = n ∧ s'.inner.2 = .ok s'.available :: s.inner.2 := by
  unfold refill at h
  split at h <;> cases h
  next hread =>
    refine ⟨by rw [length_available]; rfl, ?_⟩
    simp only [AsyncRead.tapped] at hread
    split at hread <;> cases hread
    rfl

/-- What one call of `read` does. It calls the stream if nothing is buffered, and hands out bytes
of what is buffered then. -/
inductive Reads (len : Nat) (s s' : BufReader (ρ × ReadLog ε)) :
    Except ε (List UInt8) → Prop
  | error {e : ε} : s.available = [] → s'.inner.2 = .error e :: s.inner.2 → s'.available = [] →
      Reads len s s' (.error e)
  | eof : s.available = [] → s'.inner.2 = .ok [] :: s.inner.2 → s'.available = [] →
      Reads len s s' (.ok [])
  | fresh {bytes : List UInt8} : s.available = [] →
      s'.inner.2 = .ok (bytes ++ s'.available) :: s.inner.2 → (0 < len → bytes ≠ []) →
      Reads len s s' (.ok bytes)
  | buffered {bytes : List UInt8} : s'.inner = s.inner → bytes ++ s'.available = s.available →
      (0 < len → bytes ≠ []) → Reads len s s' (.ok bytes)

theorem read_reads (R : AsyncRead ρ ε) (len : Nat) (s : BufReader (ρ × ReadLog ε)) :
    s.Reads len (s.read R.tapped len).2 (s.read R.tapped len).1 := by
  unfold read
  split
  · next hempty =>
    have hnil := (available_eq_nil s).mpr hempty
    split
    · next e s' hrefill =>
      obtain ⟨hpos, hfilled, hlog⟩ := refill_error hrefill
      refine .error hnil hlog ((available_eq_nil s').mpr ?_)
      rw [hpos, hfilled, hempty]
    · next s' hrefill =>
      obtain ⟨hlength, hlog⟩ := refill_ok hrefill
      have hnil' := List.length_eq_zero_iff.mp hlength
      exact .eof hnil (hnil' ▸ hlog) hnil'
    · next n s' hrefill =>
      obtain ⟨hlength, hlog⟩ := refill_ok hrefill
      refine .fresh hnil ?_ (take_ne_nil (List.ne_nil_of_length_eq_add_one hlength))
      rw [take_available]
      exact hlog
  · next hne =>
    exact .buffered rfl (take_available len s) (take_ne_nil (mt (available_eq_nil s).mp hne))

end

/-- A sequence of reads; the history is the bytes returned so far. -/
def step (R : AsyncRead ρ ε) (len : Nat) (s : BufReader ρ) : Option (BufReader ρ) :=
  some (s.read R len).2

def collect (R : AsyncRead ρ ε) (len : Nat) (s : BufReader ρ) (returned : List UInt8) :
    List UInt8 :=
  match (s.read R len).1 with
  | .ok bytes => returned ++ bytes
  | .error _ => returned

/-- When a call of `read` calls the stream, and when it may return an error or 0. -/
structure ReadOk (len : Nat) (s s' : BufReader (ρ × ReadLog ε)) (res : Except ε (List UInt8)) :
    Prop where
  buffered : s.available ≠ [] → s'.inner = s.inner
  error : ∀ e, res = .error e ↔ s'.inner.2 = .error e :: s.inner.2
  eof : 0 < len → res = .ok [] → s'.inner.2 = .ok [] :: s.inner.2

theorem Reads.readOk {len : Nat} {s s' : BufReader (ρ × ReadLog ε)}
    {res : Except ε (List UInt8)} (h : Reads len s s' res) : ReadOk len s s' res := by
  cases h with
  | error hnil hlog _ => exact ⟨absurd hnil, fun e => by simp [hlog], nofun⟩
  | eof hnil hlog _ => exact ⟨absurd hnil, fun e => by simp [hlog], fun _ _ => hlog⟩
  | fresh hnil hlog hne =>
    refine ⟨absurd hnil, fun e => by simp [hlog], fun hlen heq => ?_⟩
    exact absurd (Except.ok.inj heq) (hne hlen)
  | buffered hinner _ hne =>
    refine ⟨fun _ => hinner, fun e => by simp [hinner], fun hlen heq => ?_⟩
    exact absurd (Except.ok.inj heq) (hne hlen)

/-- One call keeps the account. -/
theorem collect_available {R : AsyncRead ρ ε} {len : Nat} {s : BufReader (ρ × ReadLog ε)}
    {returned : List UInt8} (h : returned ++ s.available = obtained s.inner.2) :
    collect R.tapped len s returned ++ (s.read R.tapped len).2.available =
      obtained (s.read R.tapped len).2.inner.2 := by
  have hreads := read_reads R len s
  unfold collect
  generalize (s.read R.tapped len).1 = res, (s.read R.tapped len).2 = s' at hreads ⊢
  cases hreads with
  | error hnil hlog hnil' => rw [hlog, hnil', obtained, ← h, hnil]
  | eof hnil hlog hnil' => simp [hlog, hnil', obtained, ← h, hnil]
  | fresh hnil hlog _ =>
    rw [hlog, obtained, ← h, hnil, List.append_nil]
    exact List.append_assoc ..
  | buffered hinner hbytes _ =>
    rw [hinner, ← h, ← hbytes]
    exact List.append_assoc ..

/-- **`BufReader` is transparent.** After any sequence of reads of any stream the bytes returned and
the buffered ones are the bytes obtained from the stream. The next call, with a buffer of any
length, leaves the stream alone if bytes are buffered, fails exactly if the stream does, and returns
`Ok(0)` only for an empty buffer or if the stream has just returned 0. -/
theorem bufReader_transparent {R : AsyncRead ρ ε} {capacity : Nat} {r : ρ} {tr : List Nat}
    {p : BufReader (ρ × ReadLog ε) × List UInt8}
    (hrun : Run (initHist (· = withCapacity capacity (r, [])) [])
      (withHist (step R.tapped) (collect R.tapped)) Free tr p) :
    p.2 ++ p.1.available = obtained p.1.inner.2 ∧
      ∀ len, ReadOk len p.1 (p.1.read R.tapped len).2 (p.1.read R.tapped len).1 := by
  refine ⟨?_, fun len => (read_reads R len p.1).readOk⟩
  refine hrun.hist_invariant
    (I := fun s returned => returned ++ s.available = obtained s.inner.2) ?_ ?_
  · rintro s rfl
    simp [available, withCapacity, obtained]
  · intro s returned len s' h _ hst
    cases hst
    exact collect_available h

/-- Two chunks through a buffer of four bytes, with a report of the end of the stream between. -/
theorem bufReader_transparent_chunks :
    ∃ p, Run (initHist (· = withCapacity 4 ([[1, 2, 3], [], [4, 5]], [])) [])
        (withHist (step ofChunks.tapped) (collect ofChunks.tapped)) Free [8, 8, 2, 2] p ∧
      p.2 = [1, 2, 3, 4, 5] ∧ p.2 ++ p.1.available = obtained p.1.inner.2 ∧
      (p.1.read ofChunks.tapped 8).1 = .ok [] ∧
      (p.1.read ofChunks.tapped 8).2.inner.2 = .ok [] :: p.1.inner.2 := by
  obtain ⟨p, hrun, hreturned, heof⟩ : ∃ p,
      Run (initHist (· = withCapacity 4 ([[1, 2, 3], [], [4, 5]], [])) [])
        (withHist (step ofChunks.tapped) (collect ofChunks.tapped)) Free [8, 8, 2, 2] p ∧
      p.2 = [1, 2, 3, 4, 5] ∧ (p.1.read ofChunks.tapped 8).1 = .ok [] :=
    Run.exists_of_exec [2, 2, 8, 8] (withCapacity 4 ([[1, 2, 3], [], [4, 5]], []), []) ⟨rfl, rfl⟩
      (by decide +kernel)
  obtain ⟨hbytes, hread⟩ := bufReader_transparent hrun
  exact ⟨p, hrun, hreturned, hbytes, heof, (hread 8).eof (by decide) heof⟩

end BufReader

/-! ## `BufWriter` -/

structure BufWriter (ω : Type) where
  inner : ω
  buf : List UInt8
  capacity : Nat

namespace BufWriter

def withCapacity (capacity : Nat) (inner : ω) : BufWriter ω := ⟨inner, [], max capacity 1⟩

/-- The text of the error for a stream that reports 0. -/
def flushZero : String := "dtact-io: BufWriter's wrapped stream reported 0 bytes written"

def flush (W : AsyncWrite ω ε) (s : BufWriter ω) : Except (WriteError ε) Unit × BufWriter ω :=
  match writeAll W flushZero s.buf 0 s.inner with
  | (.error e, inner) => (.error e, { s with inner })
  | (.ok _, inner) => (.ok (), { s with inner, buf := [] })

def write (W : AsyncWrite ω ε) (data : List UInt8) (s : BufWriter ω) :
    Except (WriteError ε) Nat × BufWriter ω :=
  if s.capacity ≤ data.length then
    match s.flush W with
    | (.error e, s') => (.error e, s')
    | (.ok _, s') =>
      match W.write s'.inner data with
      | (.error e, inner) => (.error (.stream e), { s' with inner })
      | (.ok n, inner) => (.ok n, { s' with inner })
  else if s.capacity < s.buf.length + data.length then
    match s.flush W with
    | (.error e, s') => (.error e, s')
    | (.ok _, s') => (.ok data.length, { s' with buf := s'.buf ++ data })
  else (.ok data.length, { s with buf := s.buf ++ data })

inductive Act
  | write (data : List UInt8)
  | flush

def step (W : AsyncWrite ω ε) (a : Act) (s : BufWriter ω) : Option (BufWriter ω) :=
  match a with
  | .write data => some (s.write W data).2
  | .flush => some (s.flush W).2

/-- The bytes of the writes that returned `Ok`. -/
def expect (W : AsyncWrite ω ε) (a : Act) (s : BufWriter ω) (written : List UInt8) : List UInt8 :=
  match a with
  | .write data =>
    match (s.write W data).1 with
    | .ok n => written ++ data.take n
    | .error _ => written
  | .flush => written

/-- Whether the call flushes the buffer. -/
def Flushes (s : BufWriter ω) : Act → Prop
  | .write data => s.capacity ≤ data.length ∨ s.capacity < s.buf.length + data.length
  | .flush => True

/-- If the call flushes the buffer, the stream does not fail or report 0 once it has accepted a part
of it. -/
def Ready (W : AsyncWrite ω ε) (s : BufWriter ω) (a : Act) : Prop :=
  s.Flushes a → Steady W s.inner s.buf

/-- The bytes accepted and then the buffered ones are the bytes written. -/
def Conserves (s : BufWriter (ω × List UInt8)) (written : List UInt8) : Prop :=
  s.inner.2 ++ s.buf = written

section

variable {W : AsyncWrite ω ε} {s s' : BufWriter (ω × List UInt8)} {written : List UInt8}

theorem flush_ok {u : Unit} (h : s.flush W.tapped = (.ok u, s')) :
    s' = ⟨(s'.inner.1, s.inner.2 ++ s.buf), [], s.capacity⟩ := by
  obtain ⟨k, haccepted, hok, -⟩ := writeAll_tapped W flushZero s.buf 0 s.inner (Nat.zero_le _)
  unfold flush at h
  split at h <;> cases h
  next n inner hall =>
    rw [hall] at haccepted hok
    obtain ⟨-, rfl⟩ := hok n rfl
    have hinner : inner.2 = s.inner.2 ++ s.buf := by simpa using haccepted
    rw [← hinner]

theorem flush_error {e : WriteError ε} (h : s.flush W.tapped = (.error e, s'))
    (hs : s.Conserves written) :
    s'.Conserves written ↔ Steady W.tapped s.inner s.buf := by
  unfold flush at h
  split at h <;> cases h
  next hall =>
    rw [Conserves, ← writeAll_steady hall, ← hs]
    exact List.append_left_inj s.buf

/-- A `flush` that returns `Ok` has found the stream ready. -/
theorem steady_of_flush_ok {u : Unit} (h : s.flush W.tapped = (.ok u, s')) :
    Steady W.tapped s.inner s.buf := by
  intro n w' hwrite
  have htakes : Takes W.tapped s.inner (s.buf.drop 0) := by
    rw [← writeAll_isOk W.tapped flushZero]
    unfold flush at h
    split at h <;> cases h
    next hall =>
      rw [hall]
      rfl
  have hne : s.buf ≠ [] := by
    rintro hnil
    have hle := W.tapped.le_length hwrite
    simp [hnil] at hle
  obtain ⟨m, w'', hwrite', htakes⟩ := (takes_iff hne).mp htakes
  cases hwrite.symm.trans hwrite'
  exact htakes

theorem extend_conserves (hs : s.Conserves written) (data : List UInt8) :
    Conserves { s with buf := s.buf ++ data } (written ++ data.take data.length) := by
  rw [Conserves, List.take_length, ← List.append_assoc, hs]

/-- One call keeps the account exactly if the stream is ready for it. -/
theorem step_conserves {a : Act} (hs : s.Conserves written) (hst : step W.tapped a s = some s') :
    s'.Conserves (expect W.tapped a s written) ↔ s.Ready W.tapped a := by
  have hflushes (ha : s.Flushes a) : s.Ready W.tapped a ↔ Steady W.tapped s.inner s.buf :=
    ⟨fun hready => hready ha, fun hsteady _ => hsteady⟩
  have hquiet (ha : ¬ s.Flushes a) : s.Ready W.tapped a := fun h => absurd h ha
  rcases hflush : s.flush W.tapped with ⟨e | u, s₁⟩
  · have hfail := flush_error hflush hs
    cases a with
    | flush =>
      cases hst
      rw [hflushes trivial, hflush]
      exact hfail
    | write data =>
      simp only [step, expect, write, hflush, Option.some.injEq] at hst ⊢
      split at hst
      · next hlarge =>
        subst hst
        simpa only [hflushes (.inl hlarge), if_pos hlarge] using hfail
      split at hst
      · next hlarge hfull =>
        subst hst
        simpa only [hflushes (.inr hfull), if_neg hlarge, if_pos hfull] using hfail
      · next hlarge hfull =>
        subst hst
        simp only [if_neg hlarge, if_neg hfull]
        exact iff_of_true (extend_conserves hs data) (hquiet (by simp [Flushes, hlarge, hfull]))
  · refine iff_of_true ?_ fun _ => steady_of_flush_ok hflush
    have hs₁ : s₁.buf = [] ∧ s₁.Conserves written := by
      rw [flush_ok hflush, Conserves, List.append_nil]
      exact ⟨rfl, hs⟩
    cases a with
    | flush =>
      cases hst
      rw [hflush]
      exact hs₁.2
    | write data =>
      simp only [step, expect, write, hflush, Option.some.injEq] at hst ⊢
      split at hst
      · next hlarge =>
        -- straight through: nothing is buffered
        obtain ⟨hbuf, hs₁⟩ := hs₁
        rw [Conserves, hbuf, List.append_nil] at hs₁
        simp only [if_pos hlarge]
        split at hst <;> subst hst <;> simp only [Conserves, hbuf, List.append_nil]
        · next hwrite => rw [(AsyncWrite.tapped_error hwrite).2, hs₁]
        · next hwrite => rw [(AsyncWrite.tapped_ok hwrite).2, hs₁]
      split at hst
      · next hlarge hfull =>
        subst hst
        simpa only [if_neg hlarge, if_pos hfull] using extend_conserves hs₁.2 data
      · next hlarge hfull =>
        subst hst
        simpa only [if_neg hlarge, if_neg hfull] using extend_conserves hs data

/-- **`BufWriter` neither loses nor repeats bytes as long as no `flush` fails after a short write.**
In every state reached so, every call keeps the account exactly if the stream is ready for it. -/
theorem bufWriter_conserves {capacity : Nat} {w : ω} {tr : List Act}
    {p : BufWriter (ω × List UInt8) × List UInt8}
    (hrun : Run (initHist (· = withCapacity capacity (w, [])) [])
      (withHist (step W.tapped) (expect W.tapped)) (fun p a => p.1.Ready W.tapped a) tr p) :
    p.1.Conserves p.2 ∧
      (∀ a s', step W.tapped a p.1 = some s' →
        (s'.Conserves (expect W.tapped a p.1 p.2) ↔ p.1.Ready W.tapped a)) ∧
      ((p.1.flush W.tapped).1 = .ok () → (p.1.flush W.tapped).2.buf = []) := by
  have hinv : p.1.Conserves p.2 := by
    refine hrun.hist_invariant (I := Conserves) ?_
      (fun _ _ _ _ hs hready hst => (step_conserves hs hst).mpr hready)
    rintro s rfl
    rfl
  refine ⟨hinv, fun a s' hst => step_conserves hinv hst, fun hok => ?_⟩
  rcases hflush : p.1.flush W.tapped with ⟨res, s'⟩
  rw [hflush] at hok
  cases hok
  rw [flush_ok hflush]

end

/-- Three bytes are buffered; the stream accepts one of them and fails. The next `flush` writes all
three. -/
theorem failed_flush_repeats :
    ∃ p, Run (initHist (· = withCapacity 4 ([some 1, none], [])) [])
        (withHist (step scripted.tapped) (expect scripted.tapped)) Free
        [.flush, .flush, .write [1, 2, 3]] p ∧
      p.2 = [1, 2, 3] ∧ p.1.inner.2 ++ p.1.buf = [1, 1, 2, 3] := by
  exact Run.exists_of_exec [Act.write [1, 2, 3], .flush, .flush]
    (withCapacity 4 ([some 1, none], []), []) ⟨rfl, rfl⟩ (by decide +kernel)

/-- The stream refuses a `flush` at once. -/
theorem bufWriter_conserves_refused :
    ∃ p, Run (initHist (· = withCapacity 4 ([none], [])) [])
        (withHist (step scripted.tapped) (expect scripted.tapped))
        (fun p a => p.1.Ready scripted.tapped a) [.flush, .write [1, 2, 3]] p ∧
      p.1.inner.2 = [] ∧ p.1.buf = [1, 2, 3] ∧ p.2 = [1, 2, 3] ∧ p.1.Conserves p.2 := by
  have h₀ : Run (initHist (· = withCapacity 4 ([none], [])) [])
      (withHist (step scripted.tapped) (expect scripted.tapped))
      (fun p a => p.1.Ready scripted.tapped a) [] (withCapacity 4 ([none], []), []) :=
    .start ⟨rfl, rfl⟩
  have h₁ := h₀.next_get (.write [1, 2, 3])
    (fun h => absurd h (by simp [Flushes, withCapacity])) rfl
  have h₂ := h₁.next_get .flush (fun _ n w' hwrite => by cases hwrite) rfl
  exact ⟨_, h₂, by decide +kernel, by decide +kernel, rfl, (bufWriter_conserves h₂).1⟩

end BufWriter

end Dtact.Combinators
