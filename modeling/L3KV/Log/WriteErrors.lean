import L3KV.Framework.Runs
import L3KV.Log.Recover

/-!
# Write errors

`write_raw` may give up after the file has taken a part of a record, and the next record is
written behind that part. Recovery then stops at the half record, so what was written later with
success is lost. Nothing is lost as long as every write that succeeds finds a file of complete
records.
-/

namespace L3KV

open Framework

/-- What a call of `write` returns: how many bytes it took, `EINTR`, or another error. -/
inductive WriteResult where
  | took (n : Nat)
  | interrupted
  | failed
  deriving DecidableEq, Repr

/-- The loop of `write_raw` with these results of `write`. It stops at the first error. -/
def LogFile.writeLoop (f : LogFile) (data : Bytes) : List WriteResult → Option (LogFile × Bool)
  | [] => if data.isEmpty then some (f, true) else none
  | result :: results =>
      if data.isEmpty then some (f, true)
      else
        match result with
        | .took n => (f.writeRaw (data.take n)).writeLoop (data.drop n) results
        | .interrupted => f.writeLoop data results
        | .failed => some (f, false)

/-- `append` or `append_batch`, and what its `write_raw` returns. -/
def LogCall.attempt (f : LogFile) (results : List WriteResult) : LogCall → Option (LogFile × Bool)
  | append op key payload => f.writeLoop (recordBytes op key payload) results
  | appendBatch ops =>
      if ops.isEmpty then some (f, true)
      else f.writeLoop (recordBytes WalOp.batch [] (batchPayload ops)) results

private theorem LogCall.attempt_eq (f : LogFile) (results : List WriteResult) (c : LogCall) :
    c.attempt f results = f.writeLoop c.bytes results := by
  match c with
  | append op key payload => rw [append_bytes, attempt]
  | appendBatch [] => cases results <;> rfl
  | appendBatch (o :: ops) =>
      rw [appendBatch_bytes]
      rfl

private theorem LogFile.writeLoop_nil (f : LogFile) (results : List WriteResult) :
    f.writeLoop [] results = some (f, true) := by
  cases results with
  | nil => rfl
  | cons result results => cases result <;> rfl

private theorem LogCall.given_of_bytes {c : LogCall} (h : c.bytes = []) : c.given = [] := by
  match c with
  | append op key payload =>
      rw [append_bytes] at h
      exact absurd h (logFormat.bytes_ne_nil ⟨op, key, payload⟩)
  | appendBatch [] => rfl
  | appendBatch (o :: ops) =>
      rw [appendBatch_bytes] at h
      exact absurd h (logFormat.bytes_ne_nil ⟨WalOp.batch, [], batchPayload (o :: ops)⟩)

private theorem LogFile.writeLoop_spec {f g : LogFile} {data : Bytes} {results : List WriteResult}
    {ok : Bool}
    (hend : f.AtEnd) (h : f.writeLoop data results = some (g, ok)) :
    ∃ part rest, data = part ++ rest ∧ g = openAt (f.bytes ++ part) ∧ (ok = true ↔ rest = []) := by
  induction results generalizing f data with
  | nil =>
      cases data with
      | nil =>
          cases h
          exact ⟨[], [], rfl, by simpa using hend.eq_openAt, by simp⟩
      | cons b data => cases h
  | cons result results ih =>
      cases data with
      | nil =>
          rw [writeLoop_nil] at h
          cases h
          exact ⟨[], [], rfl, by simpa using hend.eq_openAt, by simp⟩
      | cons b data =>
          cases result with
          | took n =>
              obtain ⟨part, rest, hrest, hg, hok⟩ := ih (writeRaw_atEnd hend _) h
              refine ⟨(b :: data).take n ++ part, rest, ?_, ?_, hok⟩
              · rw [List.append_assoc, ← hrest, List.take_append_drop]
              · rw [hg, writeRaw_bytes hend, List.append_assoc]
          | interrupted => exact ih hend h
          | failed =>
              cases h
              exact ⟨[], b :: data, rfl, by simpa using hend.eq_openAt, by simp⟩

/-- The log, and the operations of the calls whose write succeeded. -/
structure LogRun where
  file : LogFile
  acknowledged : List BatchOp
  deriving DecidableEq, Repr

def LogRun.init : LogRun := ⟨LogFile.openAt [], []⟩

def LogRun.step (s : LogRun) (event : LogCall × List WriteResult) : Option LogRun :=
  (event.1.attempt s.file event.2).map fun r =>
    ⟨r.1, if r.2 then s.acknowledged ++ event.1.given else s.acknowledged⟩

/-- The file is a run of complete records and something unreadable. -/
structure RecordsOf (bytes : Bytes) (records : List LogRecord) (tail : Bytes) : Prop where
  fits : ∀ r ∈ records, r.Fits
  bytes_eq : bytes = logFormat.stream records ++ tail
  stops : logFormat.Stops tail

private theorem recordsOf_nil : RecordsOf [] [] [] := ⟨by simp, rfl, RecordFormat.stops_nil⟩

theorem RecordsOf.unique {bytes : Bytes} {records records' : List LogRecord} {tail tail' : Bytes}
    (h : RecordsOf bytes records tail) (h' : RecordsOf bytes records' tail') :
    records = records' ∧ tail = tail' :=
  RecordFormat.stream_unique h.fits h'.fits h.stops h'.stops (h.bytes_eq.symm.trans h'.bytes_eq)

/-- A write that takes something finds no half record if it succeeds, and completes none by
accident if it fails. -/
def LogRun.Orderly (s : LogRun) (event : LogCall × List WriteResult) : Prop :=
  ∀ file ok, event.1.attempt s.file event.2 = some (file, ok) → file.bytes ≠ s.file.bytes →
    if ok then event.1.Fits ∧ event.1.given = event.1.logged ∧ ∃ records, RecordsOf s.file.bytes records []
    else ∃ records tail tail', RecordsOf s.file.bytes records tail ∧ RecordsOf file.bytes records tail'

private theorem LogRun.Orderly.of_records {s : LogRun} {event : LogCall × List WriteResult}
    {records : List LogRecord} (hend : s.file.AtEnd) (hcut : RecordsOf s.file.bytes records [])
    (hfits : event.1.Fits) (hgiven : event.1.given = event.1.logged) : s.Orderly event := by
  intro file ok hattempt _
  rw [LogCall.attempt_eq] at hattempt
  obtain ⟨part, rest, hpart, rfl, hok⟩ := LogFile.writeLoop_spec hend hattempt
  cases ok with
  | true => exact ⟨hfits, hgiven, records, hcut⟩
  | false =>
      have hrest : rest ≠ [] := fun hnil => Bool.false_ne_true (hok.mpr hnil)
      have hshort : part.length < event.1.bytes.length := by
        rw [hpart, List.length_append]
        exact Nat.lt_add_of_pos_right (List.length_pos_iff.mpr hrest)
      have htorn := LogCall.tornTail_take hfits hshort []
      rw [List.append_nil, hpart, List.take_left] at htorn
      refine ⟨records, [], part, hcut, hcut.fits, ?_, htorn.stops⟩
      rw [LogFile.openAt_bytes, hcut.bytes_eq, List.append_nil]

/-- The operations of the complete records are those that were acknowledged. -/
structure LogRun.Kept (s : LogRun) : Prop where
  atEnd : s.file.AtEnd
  records : ∃ records tail, RecordsOf s.file.bytes records tail ∧
    records.flatMap LogRecord.ops = s.acknowledged

theorem LogRun.Kept.recover {s : LogRun} (h : s.Kept) : s.file.recover.1 = s.acknowledged := by
  obtain ⟨records, tail, hcut, hops⟩ := h.records
  rw [h.atEnd.eq_openAt, hcut.bytes_eq, LogFile.recover_stream hcut.fits hcut.stops, hops]

theorem LogRun.Kept.step {s s' : LogRun} {event : LogCall × List WriteResult} (h : s.Kept)
    (horderly : s.Orderly event) (hstep : s.step event = some s') : s'.Kept := by
  obtain ⟨⟨file, ok⟩, hattempt, rfl⟩ := Option.map_eq_some_iff.mp hstep
  have hwrite := hattempt
  rw [LogCall.attempt_eq] at hwrite
  obtain ⟨part, rest, hpart, rfl, hok⟩ := LogFile.writeLoop_spec h.atEnd hwrite
  obtain ⟨records, tail, hcut, hops⟩ := h.records
  refine ⟨LogFile.openAt_atEnd _, ?_⟩
  by_cases hsame : s.file.bytes ++ part = s.file.bytes
  · have hnil : part = [] := List.append_right_eq_self.mp hsame
    refine ⟨records, tail, by rwa [LogFile.openAt_bytes, hsame], ?_⟩
    cases ok with
    | false => exact hops
    | true =>
        rw [hnil, hok.mp rfl] at hpart
        rw [if_pos rfl, LogCall.given_of_bytes hpart, List.append_nil]
        exact hops
  · have hcond := horderly _ ok hattempt hsame
    cases ok with
    | false =>
        obtain ⟨records', tail₀, tail', hbefore, hafter⟩ := hcond
        obtain ⟨rfl, -⟩ := hcut.unique hbefore
        exact ⟨records, tail', hafter, hops⟩
    | true =>
        obtain ⟨hfits, hgiven, records', hbefore⟩ := hcond
        obtain ⟨rfl, rfl⟩ := hcut.unique hbefore
        rw [hok.mp rfl, List.append_nil] at hpart
        refine ⟨records ++ event.1.records, [], ⟨?_, ?_, RecordFormat.stops_nil⟩, ?_⟩
        · intro r hr
          rcases List.mem_append.mp hr with hr | hr
          · exact hcut.fits r hr
          · exact hfits.records_fits r hr
        · rw [LogFile.openAt_bytes, hcut.bytes_eq, ← hpart, RecordFormat.stream_append]
          simp only [List.append_nil]
          rfl
        · rw [List.flatMap_append, hops, hfits.records_ops, if_pos rfl, hgiven]

/-- As long as every write is orderly, recovery delivers what was acknowledged, in order. -/
theorem acknowledged_recovered {events : List (LogCall × List WriteResult)} {s : LogRun}
    (horderly : EveryStep LogRun.step LogRun.init events LogRun.Orderly)
    (hrun : events.foldlM LogRun.step LogRun.init = some s) :
    s.file.recover.1 = s.acknowledged := by
  have hinit : LogRun.init.Kept :=
    ⟨rfl, [], [], recordsOf_nil, rfl⟩
  have hkept : s.Kept := run_invariant (fun _ s => s.Kept) hinit
    (fun _ _ _ _ hkept horderly hstep => hkept.step horderly hstep) horderly hrun
  exact hkept.recover

/-- The first record fails after five bytes and the second succeeds behind them: recovery finds
nothing. -/
theorem acknowledged_lost : ∃ s, [
      (LogCall.append WalOp.put (ascii "a") (ascii "1"), [WriteResult.took 5, .failed]),
      (LogCall.append WalOp.put (ascii "b") (ascii "2"), [.took 13])].foldlM
        LogRun.step LogRun.init = some s ∧
    s.acknowledged = [⟨WalOp.put, ascii "b", ascii "2"⟩] ∧ s.file.recover.1 = [] := by
  let file := (recordBytes WalOp.put (ascii "a") (ascii "1")).take 5 ++
    recordBytes WalOp.put (ascii "b") (ascii "2")
  refine ⟨⟨LogFile.openAt file, [⟨WalOp.put, ascii "b", ascii "2"⟩]⟩, by decide, rfl, ?_⟩
  have hstops : logFormat.Stops file := by
    change readRecord file 0 = none
    decide
  have hnone : ∀ r ∈ ([] : List LogRecord), r.Fits := by simp
  exact congrArg Prod.fst (LogFile.recover_stream hnone hstops)

/-- A record written in two parts is recovered although the one behind it was cut off. -/
theorem acknowledged_recovered_torn :
    let events := [
      (LogCall.append WalOp.put (ascii "a") (ascii "1"), [WriteResult.took 3, .interrupted, .took 10]),
      (LogCall.append WalOp.put (ascii "b") (ascii "2"), [.took 5, .failed])]
    ∃ s, events.foldlM LogRun.step LogRun.init = some s ∧
      s.file.recover.1 = [⟨WalOp.put, ascii "a", ascii "1"⟩] := by
  intro events
  let a : LogRecord := ⟨WalOp.put, ascii "a", ascii "1"⟩
  let b : LogRecord := ⟨WalOp.put, ascii "b", ascii "2"⟩
  have hfitsA : a.Fits := ⟨by decide, by decide⟩
  have hfitsB : b.Fits := ⟨by decide, by decide⟩
  have hrun : events.foldlM LogRun.step LogRun.init =
      some ⟨LogFile.openAt (a.bytes ++ b.bytes.take 5), [⟨WalOp.put, ascii "a", ascii "1"⟩]⟩ := by
    decide
  refine ⟨_, hrun, acknowledged_recovered (everyStep_cons ?_ fun s' hstep => ?_) hrun⟩
  · exact LogRun.Orderly.of_records rfl recordsOf_nil hfitsA rfl
  · have hs' : s' = ⟨LogFile.openAt a.bytes, [⟨WalOp.put, ascii "a", ascii "1"⟩]⟩ := by
      apply Option.some.inj
      rw [← hstep]
      decide
    have hcut : RecordsOf s'.file.bytes [a] [] := by
      rw [hs']
      exact ⟨by simpa using hfitsA, by simp, RecordFormat.stops_nil⟩
    have hend : s'.file.AtEnd := by
      rw [hs']
      rfl
    exact everyStep_cons (LogRun.Orderly.of_records hend hcut hfitsB rfl) fun _ _ => everyStep_nil

end L3KV
