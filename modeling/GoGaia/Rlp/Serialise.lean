import GoGaia.Rlp.Typed

/-!
# The three serialisations of an encoding buffer

`rlp/encode.go` serialises an `encbuf` in three ways. `EncodeToBytes` copies it out with
`toBytes`. `Encode` hands it to an `io.Writer` with `toWriter`, one `Write` for each run of string
data and one for each list header. `EncodeToReader` returns the buffer's `size` and an `encReader`,
whose `Read` copies the same pieces into buffers of any size: `next` yields the next piece and
`Read` keeps the part of a piece that did not fit for the next call.

All three emit the bytes `restFrom` describes, the string data up to each header and then the
header: the reader's pieces as it reads (`EncReader.rest`, `read_spec`), the writer's writes
(`toWriterFrom_record`), and `toBytes` when the headers lie in order inside the string data.
A buffer that a writer of a typed value filled is `Closed`: its headers are in order and
`lhsize` counts their bytes, so `size` is the length of the encoding (`length_toBytes`). So for
every value, `Encode` into any writer that keeps the `io.Writer` contract passes it the bytes of
`EncodeToBytes`, reads of any sizes from `EncodeToReader` return them in order and report the end
once all are read, and the reported size is their length (`serialisations_agree`).

A Go `io.Writer` is a `Writer`: a state and a `Write` on it. `record` logs the bytes a writer
takes, which is how the bytes `Encode` produces are observed.
-/

namespace GoGaia.Rlp

/-- An `io.Writer` with state `σ` and errors `ε`: `Write` returns how many bytes it took, and
an error if it stopped. -/
structure Writer (σ ε : Type) where
  write : σ → List UInt8 → (Nat × Option ε) × σ

namespace Writer

variable {σ ε : Type}

/-- The contract of `io.Writer`: a write takes at most the bytes given, and all of them unless it
returns an error. -/
def Lawful (W : Writer σ ε) : Prop :=
  ∀ s b, (W.write s b).1.1 ≤ b.length ∧ ((W.write s b).1.2 = none → (W.write s b).1.1 = b.length)

/-- `W` with a log of the bytes it took. -/
def record (W : Writer σ ε) : Writer (σ × List UInt8) ε where
  write := fun st b =>
    match W.write st.1 b with
    | ((n, err), s) => ((n, err), (s, st.2 ++ b.take n))

end Writer

namespace Encbuf

variable {σ ε : Type}

/-- The loop of `toWriter` over the headers `hs` from the string position `strpos`. -/
def toWriterFrom (out : Writer σ ε) (str : List UInt8) :
    List Listhead → Nat → σ → Option ε × σ
  | [], strpos, s =>
    if strpos < str.length then
      -- string data after the last list header
      match out.write s (str.drop strpos) with
      | ((_, err), s) => (err, s)
    else (none, s)
  | head :: hs, strpos, s =>
    -- string data before the header, then the header
    let before : (Nat × Option ε) × σ :=
      if head.offset - strpos > 0 then out.write s ((str.drop strpos).take (head.offset - strpos))
      else ((0, none), s)
    match before with
    | ((_, some err), s) => (some err, s)
    | ((n, none), s) =>
      match out.write s head.encode with
      | ((_, some err), s) => (some err, s)
      | ((_, none), s) => toWriterFrom out str hs (strpos + n) s

/-- `toWriter`: the error of the writer, if a write failed, and the writer's state. -/
def toWriter (w : Encbuf) (out : Writer σ ε) (s : σ) : Option ε × σ :=
  toWriterFrom out w.str w.lheads 0 s

end Encbuf

/-- `Encode` of a value of type `t` into `out`: an encoding error, or what `toWriter` returns.
The case of an `*encbuf` writer, which only `EncodeRLP` methods pass, is left out. -/
def encode {σ ε : Type} (t : RType) (v : Value) (out : Writer σ ε) (s : σ) :
    Except Error (Option ε × σ) :=
  match t.tagError with
  | some err => .error err
  | none => .ok ((write t {} v Encbuf.empty).toWriter out s)

/-- `encReader`: the buffer, `none` once the reader has reached the end; the index of the next
list header; the position in the string data; and the rest of a piece that did not fit. -/
structure EncReader where
  buf : Option Encbuf
  lhpos : Nat
  strpos : Nat
  piece : Option (List UInt8)

namespace EncReader

/-- `next`: the next piece to be read, `none` at the end. -/
def next (r : EncReader) : Option (List UInt8) × EncReader :=
  match r.buf, r.piece with
  | none, _ => (none, r)
  -- there is still data available for reading
  | some _, some p => (some p, r)
  | some buf, none =>
    match buf.lheads[r.lhpos]? with
    | some head =>
      -- before the last list header: the string data before it, then the header
      if head.offset - r.strpos > 0 then
        (some ((buf.str.drop r.strpos).take (head.offset - r.strpos)),
          { r with strpos := r.strpos + (head.offset - r.strpos) })
      else (some head.encode, { r with lhpos := r.lhpos + 1 })
    | none =>
      if r.strpos < buf.str.length then
        -- string data at the end, after all list headers
        (some (buf.str.drop r.strpos), { r with strpos := buf.str.length })
      else (none, r)

/-- A bound on the calls of `next` left before the end, which each piece lowers. -/
def steps (r : EncReader) : Nat :=
  match r.buf with
  | none => 0
  | some buf =>
    (if r.piece.isSome then 1 else 0) + 3 * (buf.lheads.length - r.lhpos) +
      (match buf.lheads[r.lhpos]? with
        | some head => if head.offset - r.strpos > 0 then 1 else 0
        | none => 0) +
      (if r.strpos < buf.str.length then 1 else 0)

theorem next_steps {r r' : EncReader} {p : List UInt8} (h : r.next = (some p, r')) :
    { r' with piece := none }.steps < r.steps := by
  unfold next at h
  rcases hb : r.buf with _ | buf
  · simp [hb] at h
  rcases hp : r.piece with _ | q
  · simp only [hb, hp] at h
    rcases hh : buf.lheads[r.lhpos]? with _ | head <;> simp only [hh] at h
    · -- the string data at the end
      have hl : buf.lheads.length ≤ r.lhpos := List.getElem?_eq_none_iff.mp hh
      split at h
      · next hlt =>
        cases h
        simp [steps, hb, hp, hh, hlt]
      · cases h
    · -- the string data before a header, or the header
      have hl : r.lhpos < buf.lheads.length := (List.getElem?_eq_some_iff.mp hh).1
      split at h
      · cases h
        simp only [steps, hb, hp, hh, Option.isSome_none]
        simp
        split_ifs <;> omega
      · cases h
        simp only [steps, hb, hp, hh]
        simp
        split <;> split_ifs <;> omega
  · -- the rest of a piece that did not fit
    simp only [hb, hp, Prod.mk.injEq] at h
    obtain ⟨-, rfl⟩ := h
    simp [steps, hb, hp]

/-- The loop of `Read` into a buffer of `size` bytes, of which `out` are filled. -/
def readLoop (r : EncReader) (size : Nat) (out : List UInt8) : (List UInt8 × Bool) × EncReader :=
  match h : r.next with
  | (none, r') =>
    -- the end: the buffer is released, and every later read sees the end again
    ((out, true), { r' with piece := none, buf := none })
  | (some piece, r') =>
    let nn := min (size - out.length) piece.length
    if nn < piece.length then
      -- the piece did not fit: the rest is read next time
      ((out ++ piece.take nn, false), { r' with piece := some (piece.drop nn) })
    else readLoop { r' with piece := none } size (out ++ piece)
termination_by r.steps
decreasing_by exact next_steps h

/-- `Read` into a buffer of `size` bytes: the bytes read, and whether the end was reached. -/
def read (r : EncReader) (size : Nat) : (List UInt8 × Bool) × EncReader := r.readLoop size []

/-- Reads of the given sizes, one after another. -/
def readAll : EncReader → List Nat → List (List UInt8 × Bool)
  | _, [] => []
  | r, size :: sizes => (r.read size).1 :: readAll (r.read size).2 sizes

end EncReader

/-- `EncodeToReader` of a value of type `t`: the buffer's size and a reader of it. -/
def encodeToReader (t : RType) (v : Value) : Except Error (Nat × EncReader) :=
  match t.tagError with
  | some err => .error err
  | none =>
    let eb := write t {} v Encbuf.empty
    .ok (eb.size, ⟨some eb, 0, 0, none⟩)

/-! ## What a reader returns -/

/-- What reads of the given sizes return from a stream of `data`: each the next bytes, as many
as fit, and whether the stream has ended. -/
def chunks (data : List UInt8) : List Nat → List (List UInt8 × Bool)
  | [] => []
  | size :: sizes => (data.take size, decide (data.length ≤ size)) :: chunks (data.drop size) sizes

/-- The bytes that `toWriter` and `next` emit from the header list `hs` and the string position
`strpos`: the string data up to each header, then the header, then the rest of the string. -/
def restFrom (str : List UInt8) : List Listhead → Nat → List UInt8
  | [], strpos => str.drop strpos
  | head :: hs, strpos =>
    (str.drop strpos).take (head.offset - strpos) ++ head.encode ++
      restFrom str hs (strpos + (head.offset - strpos))

namespace EncReader

/-- The bytes the reader has still to return. -/
def rest (r : EncReader) : List UInt8 :=
  match r.buf with
  | none => []
  | some buf => r.piece.getD [] ++ restFrom buf.str (buf.lheads.drop r.lhpos) r.strpos

/-- A piece of `next` is the front of what is left. -/
theorem rest_of_next_some {r r' : EncReader} {p : List UInt8} (h : r.next = (some p, r')) :
    r.rest = p ++ { r' with piece := none }.rest := by
  unfold next at h
  rcases hb : r.buf with _ | buf
  · simp [hb] at h
  rcases hp : r.piece with _ | q
  · simp only [hb, hp] at h
    rcases hh : buf.lheads[r.lhpos]? with _ | head <;> simp only [hh] at h
    · -- the string data at the end
      have hl : buf.lheads.length ≤ r.lhpos := List.getElem?_eq_none_iff.mp hh
      split at h
      · cases h
        simp [rest, hb, hp, List.drop_of_length_le hl, restFrom]
      · cases h
    · have hd : buf.lheads.drop r.lhpos = head :: buf.lheads.drop (r.lhpos + 1) := by
        rw [List.drop_eq_getElem_cons (List.getElem?_eq_some_iff.mp hh).1,
          (List.getElem?_eq_some_iff.mp hh).2]
      split at h
      · -- the string data before the header: the header comes next, from its offset
        cases h
        have h0 : head.offset - (r.strpos + (head.offset - r.strpos)) = 0 := by omega
        simp [rest, hb, hp, hd, restFrom, h0, List.append_assoc]
      · -- the header
        cases h
        have h0 : head.offset - r.strpos = 0 := by omega
        simp [rest, hb, hp, hd, restFrom, h0]
  · -- the rest of a piece that did not fit
    simp only [hb, hp, Prod.mk.injEq, Option.some.injEq] at h
    obtain ⟨rfl, rfl⟩ := h
    simp [rest, hb, hp]

/-- A piece comes from the buffer, which stays. -/
theorem buf_of_next_some {r r' : EncReader} {p : List UInt8} (h : r.next = (some p, r')) :
    ∃ buf, r.buf = some buf ∧ r'.buf = some buf := by
  unfold next at h
  rcases hb : r.buf with _ | buf
  · simp [hb] at h
  refine ⟨buf, rfl, ?_⟩
  rcases hp : r.piece with _ | q
  · simp only [hb, hp] at h
    rcases hh : buf.lheads[r.lhpos]? with _ | head <;> simp only [hh] at h
    · split at h
      · cases h
        rfl
      · cases h
    · split at h <;> cases h <;> rfl
  · simp only [hb, hp, Prod.mk.injEq] at h
    rw [← h.2, hb]

theorem rest_of_next_none {r r' : EncReader} (h : r.next = (none, r')) : r.rest = [] := by
  unfold next at h
  rcases hb : r.buf with _ | buf
  · simp [rest, hb]
  rcases hp : r.piece with _ | q
  · simp only [hb, hp] at h
    rcases hh : buf.lheads[r.lhpos]? with _ | head <;> simp only [hh] at h
    · split at h
      · cases h
      · have hl : buf.lheads.length ≤ r.lhpos := List.getElem?_eq_none_iff.mp hh
        simp [rest, hb, hp, List.drop_of_length_le hl, restFrom]
        omega
    · split at h <;> cases h
  · simp [hb, hp] at h

/-- **One `Read`.** A read into a buffer of `size` bytes returns the next `size` bytes, or all that
is left, and reports the end exactly when nothing is left after it. -/
theorem readLoop_spec (r : EncReader) (size : Nat) (out : List UInt8) (hout : out.length ≤ size) :
    ∃ r', r.readLoop size out =
      ((out ++ r.rest.take (size - out.length), decide (r.rest.length ≤ size - out.length)), r') ∧
      r'.rest = r.rest.drop (size - out.length) := by
  induction r, out using readLoop.induct size with
  | case1 r out r' h =>
    -- the end
    have hr := rest_of_next_none h
    refine ⟨{ r' with piece := none, buf := none }, ?_, by rw [hr, List.drop_nil]; rfl⟩
    rw [readLoop]
    split
    · next heq =>
      rw [h] at heq
      cases heq
      simp [hr]
    · next heq => rw [h] at heq; cases heq
  | case2 r out piece r' h nn hfit =>
    -- the piece does not fit: the rest of it is kept
    have hfit' : min (size - out.length) piece.length < piece.length := hfit
    have hn : min (size - out.length) piece.length = size - out.length := by omega
    have hr := rest_of_next_some h
    have hle : size - out.length ≤ piece.length := by omega
    refine ⟨{ r' with piece := some (piece.drop (min (size - out.length) piece.length)) }, ?_, ?_⟩
    · rw [readLoop]
      split
      · next heq => rw [h] at heq; cases heq
      · next heq =>
        rw [h] at heq
        cases heq
        rw [if_pos hfit', hr, hn, List.take_append_of_le_length hle]
        congr 2
        rw [eq_comm, decide_eq_false_iff_not, List.length_append]
        omega
    · obtain ⟨buf, -, hb⟩ := buf_of_next_some h
      rw [hr, List.drop_append_of_le_length hle, hn]
      simp [rest, hb]
  | case3 r out piece r' h nn hfit ih =>
    -- the piece fits: on with the next one
    have hfit' : ¬ min (size - out.length) piece.length < piece.length := hfit
    have hle : piece.length ≤ size - out.length := by omega
    have hr := rest_of_next_some h
    obtain ⟨r'', h'', hrest⟩ := ih (by simp; omega)
    have hk : size - (out ++ piece).length = size - out.length - piece.length := by
      simp; omega
    refine ⟨r'', ?_, ?_⟩
    · rw [readLoop]
      split
      · next heq => rw [h] at heq; cases heq
      · next heq =>
        rw [h] at heq
        cases heq
        rw [if_neg hfit', h'', hr, hk, List.take_append, List.take_of_length_le hle,
          List.append_assoc]
        congr 2
        rw [decide_eq_decide, List.length_append]
        omega
    · rw [hrest, hr, hk, List.drop_append, List.drop_of_length_le hle, List.nil_append]

theorem read_spec (r : EncReader) (size : Nat) :
    ∃ r', r.read size = ((r.rest.take size, decide (r.rest.length ≤ size)), r') ∧
      r'.rest = r.rest.drop size := by
  simpa [read] using readLoop_spec r size [] (Nat.zero_le _)

/-- Reads of any sizes return what is left in order, each reporting whether it reached the
end. -/
theorem readAll_eq_chunks : ∀ (r : EncReader) (sizes : List Nat),
    r.readAll sizes = chunks r.rest sizes
  | _, [] => rfl
  | r, size :: sizes => by
    obtain ⟨r', h, hr⟩ := read_spec r size
    rw [readAll, chunks, h, readAll_eq_chunks r' sizes, hr]

end EncReader

/-! ## What a writer receives -/

namespace Writer

variable {σ ε : Type}

/-- One write of the recorded writer logs the bytes the writer took. -/
theorem record_write (W : Writer σ ε) (s : σ) (log b : List UInt8) :
    W.record.write (s, log) b =
      ((W.write s b).1, ((W.write s b).2, log ++ b.take (W.write s b).1.1)) := rfl

/-- A lawful write of `b` takes a prefix of `b`, all of it when it returns no error. -/
theorem Lawful.take {W : Writer σ ε} (hW : W.Lawful) (s : σ) (b : List UInt8) :
    b.take (W.write s b).1.1 <+: b ∧
      ((W.write s b).1.2 = none → b.take (W.write s b).1.1 = b) := by
  refine ⟨List.take_prefix _ _, fun he => ?_⟩
  rw [(hW s b).2 he, List.take_length]

end Writer

namespace Encbuf

variable {σ ε : Type}

/-- **`toWriter` writes what is left.** Into a writer that keeps the contract, with every header
inside the string data, the writes of `toWriter` take a prefix of the bytes `restFrom` describes,
and all of them unless a write fails. -/
theorem toWriterFrom_record {W : Writer σ ε} (hW : W.Lawful) (str : List UInt8) :
    ∀ (hs : List Listhead) (strpos : Nat) (s : σ) (log : List UInt8),
      (∀ h ∈ hs, h.offset ≤ str.length) →
      ∃ pre, (toWriterFrom W.record str hs strpos (s, log)).2.2 = log ++ pre ∧
        pre <+: restFrom str hs strpos ∧
        ((toWriterFrom W.record str hs strpos (s, log)).1 = none →
          pre = restFrom str hs strpos)
  | [], strpos, s, log, _ => by
    by_cases hlt : strpos < str.length
    · -- the string data after the last header
      obtain ⟨hpre, hall⟩ := hW.take s (str.drop strpos)
      refine ⟨(str.drop strpos).take (W.write s (str.drop strpos)).1.1, ?_, hpre, fun he => ?_⟩
      · simp only [toWriterFrom, if_pos hlt, Writer.record_write]
      · simp only [toWriterFrom, if_pos hlt, Writer.record_write] at he
        exact hall he
    · refine ⟨[], by simp [toWriterFrom, hlt], List.nil_prefix, fun _ => ?_⟩
      simp only [restFrom]
      rw [List.drop_of_length_le (by omega)]
  | head :: hs, strpos, s, log, hb => by
    have hoff : head.offset ≤ str.length := hb head List.mem_cons_self
    -- the data before the header: some of it is taken, all of it without an error
    let d := (str.drop strpos).take (head.offset - strpos)
    have hd : d.length = head.offset - strpos := by simp [d]; omega
    obtain ⟨n, err, s₁, hbefore, hnle, hnall⟩ : ∃ n err s₁,
        (if head.offset - strpos > 0 then W.record.write (s, log) d else ((0, none), (s, log))) =
          ((n, err), (s₁, log ++ d.take n)) ∧ n ≤ d.length ∧ (err = none → n = d.length) := by
      by_cases hgt : head.offset - strpos > 0
      · exact ⟨_, _, _, by rw [if_pos hgt, Writer.record_write], hW s d⟩
      · have hd0 : d = [] := List.eq_nil_of_length_eq_zero (by omega)
        exact ⟨0, none, s, by rw [if_neg hgt, hd0]; simp, by simp, fun _ => by simp [hd0]⟩
    have hrest : restFrom str (head :: hs) strpos =
        d ++ head.encode ++ restFrom str hs (strpos + (head.offset - strpos)) := rfl
    rw [hrest]
    rcases err with _ | e
    · -- then the header
      have hnd : n = head.offset - strpos := by rw [hnall rfl, hd]
      have htake : d.take n = d := by rw [hnall rfl, List.take_length]
      rcases hw₂ : W.write s₁ head.encode with ⟨⟨m, e₂⟩, s₂⟩
      have hlaw₂ : m ≤ head.encode.length ∧ (e₂ = none → m = head.encode.length) := by
        have := hW s₁ head.encode
        rw [hw₂] at this
        exact this
      rcases e₂ with _ | e₂
      · -- and what follows it
        have hm : head.encode.take m = head.encode := by rw [hlaw₂.2 rfl, List.take_length]
        have hstep : toWriterFrom W.record str (head :: hs) strpos (s, log) =
            toWriterFrom W.record str hs (strpos + n) (s₂, log ++ d ++ head.encode) := by
          simp only [toWriterFrom]
          rw [hbefore, htake]
          simp only [Writer.record_write, hw₂, hm]
        obtain ⟨pre, hlog, hpre, hfull⟩ := toWriterFrom_record hW str hs (strpos + n) s₂
          (log ++ d ++ head.encode) (fun h hh => hb h (List.mem_cons_of_mem _ hh))
        refine ⟨d ++ head.encode ++ pre, ?_, ?_, fun hn' => ?_⟩
        · rw [hstep, hlog, List.append_assoc, List.append_assoc, List.append_assoc]
        · rw [← hnd]
          exact (List.prefix_append_right_inj _).mpr hpre
        · rw [hstep] at hn'
          rw [hfull hn', hnd]
      · -- the header's write fails
        have hstep : toWriterFrom W.record str (head :: hs) strpos (s, log) =
            (some e₂, (s₂, log ++ d ++ head.encode.take m)) := by
          simp only [toWriterFrom]
          rw [hbefore, htake]
          simp only [Writer.record_write, hw₂]
        refine ⟨d ++ head.encode.take m, ?_, ?_, fun hn' => ?_⟩
        · rw [hstep, List.append_assoc]
        · rw [List.append_assoc]
          exact (List.prefix_append_right_inj _).mpr
            ((List.take_prefix _ _).trans (List.prefix_append _ _))
        · rw [hstep] at hn'
          cases hn'
    · -- the write of the data fails
      have hstep : toWriterFrom W.record str (head :: hs) strpos (s, log) =
          (some e, (s₁, log ++ d.take n)) := by
        simp only [toWriterFrom]
        rw [hbefore]
      refine ⟨d.take n, by rw [hstep],
        (List.take_prefix _ _).trans ⟨_, (List.append_assoc _ _ _).symm⟩, fun hn' => ?_⟩
      rw [hstep] at hn'
      cases hn'

/-- Logging the bytes changes nothing of what `toWriter` does with the writer. -/
theorem toWriterFrom_record_run (W : Writer σ ε) (str : List UInt8) :
    ∀ (hs : List Listhead) (strpos : Nat) (s : σ) (log : List UInt8),
      ((toWriterFrom W.record str hs strpos (s, log)).1,
          (toWriterFrom W.record str hs strpos (s, log)).2.1) =
        toWriterFrom W str hs strpos s
  | [], strpos, s, log => by
    by_cases hlt : strpos < str.length <;> simp [toWriterFrom, hlt, Writer.record_write]
  | head :: hs, strpos, s, log => by
    -- both loops make the same writes, so they see the same results
    have hbefore : ∃ n err s₁ log₁,
        (if head.offset - strpos > 0 then
            W.record.write (s, log) ((str.drop strpos).take (head.offset - strpos))
          else ((0, none), (s, log))) = ((n, err), (s₁, log₁)) ∧
        (if head.offset - strpos > 0 then W.write s ((str.drop strpos).take (head.offset - strpos))
          else ((0, none), s)) = ((n, err), s₁) := by
      by_cases hgt : head.offset - strpos > 0
      · simp only [if_pos hgt, Writer.record_write]
        exact ⟨_, _, _, _, rfl, rfl⟩
      · simp only [if_neg hgt]
        exact ⟨_, _, _, _, rfl, rfl⟩
    obtain ⟨n, err, s₁, log₁, hr, hw⟩ := hbefore
    simp only [toWriterFrom]
    rw [hr, hw]
    rcases err with _ | e
    · simp only [Writer.record_write]
      rcases hw₂ : W.write s₁ head.encode with ⟨⟨m, e₂⟩, s₂⟩
      rcases e₂ with _ | e₂
      · exact toWriterFrom_record_run W str hs (strpos + n) s₂ _
      · rfl
    · rfl

end Encbuf

/-! ## Buffers whose lists are closed -/

namespace Encbuf

/-- A buffer whose lists are all closed: its headers lie in order inside the string data, and
`lhsize` counts their bytes. -/
structure Closed (w : Encbuf) : Prop where
  sorted : w.lheads.Pairwise fun a b => a.offset ≤ b.offset
  bounded : ∀ h ∈ w.lheads, h.offset ≤ w.str.length
  lhsize : w.lhsize = (w.lheads.map fun h => h.encode.length).sum

theorem closed_empty : Encbuf.empty.Closed := ⟨List.Pairwise.nil, by simp [Encbuf.empty], rfl⟩

theorem Closed.write {w : Encbuf} (h : w.Closed) (b : List UInt8) : (w.write b).Closed where
  sorted := h.sorted
  bounded := fun hd hm => by
    have := h.bounded hd hm
    simp
    omega
  lhsize := h.lhsize

theorem Closed.append {w v : Encbuf} (hw : w.Closed) (hv : v.Closed) : (w.append v).Closed where
  sorted := by
    simp only [append_lheads]
    refine List.pairwise_append.mpr ⟨hw.sorted, ?_, ?_⟩
    · exact List.Pairwise.map _ (fun a b h => by simp; omega) hv.sorted
    · intro a ha b hb
      obtain ⟨b', -, rfl⟩ := List.mem_map.mp hb
      have := hw.bounded a ha
      simp
      omega
  bounded := by
    intro h hm
    simp only [append_lheads, List.mem_append, List.mem_map] at hm
    rcases hm with hm | ⟨h', hm', rfl⟩
    · have := hw.bounded h hm
      simp
      omega
    · have := hv.bounded h' hm'
      simp
      omega
  lhsize := by simp [hw.lhsize, hv.lhsize, Function.comp_def]

/-- A list opened in an empty buffer and closed around `v`. -/
theorem listEnd_list_empty (v : Encbuf) :
    ((empty.list.1).append v).listEnd 0 =
      ⟨v.str, ⟨0, v.size⟩ :: v.lheads, v.lhsize + headsize v.size⟩ := by
  simp only [list, empty, append, listEnd, size, headsize, List.nil_append, List.length_nil,
    Listhead.shift_zero, List.map_id, List.singleton_append, List.getD_cons_zero,
    List.set_cons_zero, Nat.zero_add, Nat.sub_zero]
  rfl

theorem Closed.listEnd_list {v : Encbuf} (hv : v.Closed) : (((empty.list.1).append v).listEnd 0).Closed := by
  rw [listEnd_list_empty]
  refine ⟨List.pairwise_cons.mpr ⟨fun _ _ => Nat.zero_le _, hv.sorted⟩, ?_, ?_⟩
  · intro h hm
    rcases List.mem_cons.mp hm with rfl | hm
    · exact Nat.zero_le _
    · exact hv.bounded h hm
  · simp [hv.lhsize, Listhead.encode, Nat.add_comm]

/-- A writer that only appends string data, the same whatever the buffer holds. -/
def WritesString (f : Encbuf → Encbuf) : Prop := ∀ w, f w = w.write (f empty).str

theorem WritesString.frame {f : Encbuf → Encbuf} (hf : WritesString f) (w : Encbuf) :
    f w = w.append (f empty) :=
  calc f w = w.write (f empty).str := hf w
    _ = w.append (empty.write (f empty).str) := write_eq_append _ _
    _ = w.append (f empty) := by rw [← hf empty]

theorem WritesString.closed {f : Encbuf → Encbuf} (hf : WritesString f) {w : Encbuf}
    (hw : w.Closed) : (f w).Closed := by
  rw [hf w]
  exact hw.write _

theorem writesString_encodeString (b : List UInt8) : WritesString (·.encodeString b) := by
  intro w
  simp only [encodeString_eq]
  rfl

theorem writesString_writeUint (i : Nat) : WritesString (·.writeUint i) := by
  intro w
  unfold writeUint
  split_ifs <;> rfl

theorem writesString_writeBool (b : Bool) : WritesString (·.writeBool b) := by
  intro w
  unfold writeBool
  split_ifs <;> rfl

theorem writesString_writeBigInt (i : Nat) : WritesString (·.writeBigInt i) := by
  intro w
  unfold writeBigInt
  split_ifs
  · rfl
  · exact writesString_encodeString _ w

theorem writesString_writeBigIntPtr (p : Option Nat) : WritesString (·.writeBigIntPtr p) := by
  intro w
  cases p with
  | none => rfl
  | some i => exact writesString_writeBigInt i w

/-- Opening a list, writing into it and closing it appends to the buffer what the same does in an
empty buffer. -/
theorem listEnd_frame {f : Encbuf → Encbuf} (hf : ∀ u, f u = u.append (f empty)) (w : Encbuf) :
    (f w.list.1).listEnd w.list.2 = w.append ((f empty.list.1).listEnd empty.list.2) := by
  rw [hf w.list.1, hf empty.list.1, listEnd_list_append]
  rfl

theorem listEnd_closed {f : Encbuf → Encbuf} (hf : ∀ u, f u = u.append (f empty))
    (hc : (f empty).Closed) : ((f empty.list.1).listEnd empty.list.2).Closed := by
  rw [hf empty.list.1]
  exact hc.listEnd_list

/-- An empty list: the writer of a nil pointer to a struct or an array. -/
theorem emptyList_frame (w : Encbuf) :
    w.list.1.listEnd w.list.2 = w.append (empty.list.1.listEnd empty.list.2) :=
  listEnd_frame (f := id) (fun u => (append_empty u).symm) w

theorem emptyList_closed : (empty.list.1.listEnd empty.list.2).Closed :=
  listEnd_closed (f := id) (fun u => (append_empty u).symm) closed_empty

/-- The loop of a writer over elements appends what each element's writer appends. -/
theorem foldl_frame {g : Encbuf → Value → Encbuf} (hg : ∀ v u, g u v = u.append (g empty v)) :
    ∀ (vs : List Value) (w : Encbuf), vs.foldl g w = w.append (vs.foldl g empty)
  | [], w => (append_empty w).symm
  | v :: vs, w => by
    rw [List.foldl_cons, List.foldl_cons, foldl_frame hg vs (g w v), foldl_frame hg vs (g empty v),
      hg v w, append_assoc]

theorem foldl_closed {g : Encbuf → Value → Encbuf} (hg : ∀ v u, u.Closed → (g u v).Closed) :
    ∀ (vs : List Value) {w : Encbuf}, w.Closed → (vs.foldl g w).Closed
  | [], _, hw => hw
  | v :: vs, _, hw => foldl_closed hg vs (hg v _ hw)

end Encbuf

/-! ## The buffers of typed values -/

mutual
/-- **The frame of the typed writers.** Writing a value appends to the buffer what writing it
into an empty buffer produces. -/
theorem write_frame : ∀ (t : RType) (ts : Tags) (v : Value) (w : Encbuf),
    write t ts v w = w.append (write t ts v Encbuf.empty)
  | .uint _, _, v, w => by
    cases v
    case uint i => exact (Encbuf.writesString_writeUint i).frame w
    all_goals exact (Encbuf.append_empty w).symm
  | .bool, _, v, w => by
    cases v
    case bool b => exact (Encbuf.writesString_writeBool b).frame w
    all_goals exact (Encbuf.append_empty w).symm
  | .string, _, v, w => by
    cases v
    case string b => exact (Encbuf.writesString_encodeString b).frame w
    all_goals exact (Encbuf.append_empty w).symm
  | .bigInt, _, v, w => by
    cases v
    case bigInt i => exact (Encbuf.writesString_writeBigInt i).frame w
    all_goals exact (Encbuf.append_empty w).symm
  | .bigIntPtr, _, v, w => by
    cases v
    case bigIntPtr p => exact (Encbuf.writesString_writeBigIntPtr p).frame w
    all_goals exact (Encbuf.append_empty w).symm
  | .bytes, _, v, w => by
    cases v
    case bytes b => exact (Encbuf.writesString_encodeString b).frame w
    all_goals exact (Encbuf.append_empty w).symm
  | .byteArray _, _, v, w => by
    cases v
    case bytes b => exact (Encbuf.writesString_encodeString b).frame w
    all_goals exact (Encbuf.append_empty w).symm
  | .slice t, ts, v, w => by
    have hg : ∀ v u, write t {} v u = u.append (write t {} v Encbuf.empty) :=
      fun v u => write_frame t {} v u
    cases v
    case list vs =>
      rw [write, write]
      split
      · exact Encbuf.foldl_frame hg vs w
      · exact Encbuf.listEnd_frame (f := fun u => vs.foldl (fun w v => write t {} v w) u)
          (Encbuf.foldl_frame hg vs) w
    all_goals exact (Encbuf.append_empty w).symm
  | .array _ t, ts, v, w => by
    have hg : ∀ v u, write t {} v u = u.append (write t {} v Encbuf.empty) :=
      fun v u => write_frame t {} v u
    cases v
    case list vs =>
      rw [write, write]
      split
      · exact Encbuf.foldl_frame hg vs w
      · exact Encbuf.listEnd_frame (f := fun u => vs.foldl (fun w v => write t {} v w) u)
          (Encbuf.foldl_frame hg vs) w
    all_goals exact (Encbuf.append_empty w).symm
  | .struct _ fs, _, v, w => by
    have hf : ∀ vs u, writeFields fs vs u = u.append (writeFields fs vs Encbuf.empty) :=
      fun vs u => writeFields_frame fs vs u
    cases v
    case struct vs => exact Encbuf.listEnd_frame (f := fun u => writeFields fs vs u) (hf vs) w
    all_goals exact (Encbuf.append_empty w).symm
  | .ptr t, _, v, w => by
    have ih : ∀ v u, write t {} v u = u.append (write t {} v Encbuf.empty) :=
      fun v u => write_frame t {} v u
    cases v
    case ptr o =>
      cases o
      case none =>
        -- the writer of a nil pointer
        cases t
        case byteArray => exact Encbuf.write_eq_append w _
        case struct => exact Encbuf.emptyList_frame w
        case array => exact Encbuf.emptyList_frame w
        all_goals exact ih _ w
      case some v => exact ih v w
    all_goals exact (Encbuf.append_empty w).symm

theorem writeFields_frame : ∀ (fs : List Field) (vs : List Value) (w : Encbuf),
    writeFields fs vs w = w.append (writeFields fs vs Encbuf.empty)
  | [], vs, w => by cases vs <;> exact (Encbuf.append_empty w).symm
  | .mk _ _ _ :: _, [], w => (Encbuf.append_empty w).symm
  | .mk _ tags t :: fs, v :: vs, w => by
    rw [writeFields, writeFields]
    split
    · exact writeFields_frame fs vs w
    · rw [writeFields_frame fs vs (write t tags v w),
        writeFields_frame fs vs (write t tags v Encbuf.empty), write_frame t tags v w,
        Encbuf.append_assoc]
end

mutual
/-- Writing a value into a closed buffer leaves it closed. -/
theorem write_closed : ∀ (t : RType) (ts : Tags) (v : Value) {w : Encbuf}, w.Closed →
    (write t ts v w).Closed
  | .uint _, _, v, _, hw => by
    cases v
    case uint i => exact (Encbuf.writesString_writeUint i).closed hw
    all_goals exact hw
  | .bool, _, v, _, hw => by
    cases v
    case bool b => exact (Encbuf.writesString_writeBool b).closed hw
    all_goals exact hw
  | .string, _, v, _, hw => by
    cases v
    case string b => exact (Encbuf.writesString_encodeString b).closed hw
    all_goals exact hw
  | .bigInt, _, v, _, hw => by
    cases v
    case bigInt i => exact (Encbuf.writesString_writeBigInt i).closed hw
    all_goals exact hw
  | .bigIntPtr, _, v, _, hw => by
    cases v
    case bigIntPtr p => exact (Encbuf.writesString_writeBigIntPtr p).closed hw
    all_goals exact hw
  | .bytes, _, v, _, hw => by
    cases v
    case bytes b => exact (Encbuf.writesString_encodeString b).closed hw
    all_goals exact hw
  | .byteArray _, _, v, _, hw => by
    cases v
    case bytes b => exact (Encbuf.writesString_encodeString b).closed hw
    all_goals exact hw
  | .slice t, ts, v, w, hw => by
    have ih : ∀ v u, u.Closed → (write t {} v u).Closed := fun v _ hu => write_closed t {} v hu
    have hg : ∀ v u, write t {} v u = u.append (write t {} v Encbuf.empty) :=
      fun v u => write_frame t {} v u
    cases v
    case list vs =>
      rw [write]
      split
      · exact Encbuf.foldl_closed ih vs hw
      · -- a closed list behind the buffer
        rw [Encbuf.listEnd_frame (f := fun u => vs.foldl (fun w v => write t {} v w) u)
          (Encbuf.foldl_frame hg vs) w]
        exact hw.append (Encbuf.listEnd_closed (Encbuf.foldl_frame hg vs)
          (Encbuf.foldl_closed ih vs Encbuf.closed_empty))
    all_goals exact hw
  | .array _ t, ts, v, w, hw => by
    have ih : ∀ v u, u.Closed → (write t {} v u).Closed := fun v _ hu => write_closed t {} v hu
    have hg : ∀ v u, write t {} v u = u.append (write t {} v Encbuf.empty) :=
      fun v u => write_frame t {} v u
    cases v
    case list vs =>
      rw [write]
      split
      · exact Encbuf.foldl_closed ih vs hw
      · rw [Encbuf.listEnd_frame (f := fun u => vs.foldl (fun w v => write t {} v w) u)
          (Encbuf.foldl_frame hg vs) w]
        exact hw.append (Encbuf.listEnd_closed (Encbuf.foldl_frame hg vs)
          (Encbuf.foldl_closed ih vs Encbuf.closed_empty))
    all_goals exact hw
  | .struct _ fs, _, v, w, hw => by
    cases v
    case struct vs =>
      rw [write, Encbuf.listEnd_frame (f := fun u => writeFields fs vs u)
        (writeFields_frame fs vs) w]
      exact hw.append (Encbuf.listEnd_closed (writeFields_frame fs vs)
        (writeFields_closed fs vs Encbuf.closed_empty))
    all_goals exact hw
  | .ptr t, _, v, w, hw => by
    have ih : ∀ v {u : Encbuf}, u.Closed → (write t {} v u).Closed :=
      fun v _ hu => write_closed t {} v hu
    cases v
    case ptr o =>
      cases o
      case none =>
        cases t
        case byteArray => exact hw.write _
        case struct =>
          rw [write, Encbuf.emptyList_frame w]
          exact hw.append Encbuf.emptyList_closed
        case array =>
          rw [write, Encbuf.emptyList_frame w]
          exact hw.append Encbuf.emptyList_closed
        all_goals exact ih _ hw
      case some v => exact ih v hw
    all_goals exact hw

theorem writeFields_closed : ∀ (fs : List Field) (vs : List Value) {w : Encbuf}, w.Closed →
    (writeFields fs vs w).Closed
  | [], vs, _, hw => by cases vs <;> exact hw
  | .mk _ _ _ :: _, [], _, hw => hw
  | .mk _ tags t :: fs, v :: vs, _, hw => by
    rw [writeFields]
    split
    · exact writeFields_closed fs vs hw
    · exact writeFields_closed fs vs (write_closed t tags v hw)
end

/-! ## The three serialisations agree -/

namespace Encbuf

/-- With the headers in order from the string position on, what `toWriter` and the reader emit
is what `toBytes` copies. -/
theorem restFrom_eq_weave (str : List UInt8) : ∀ (hs : List Listhead) (strpos : Nat),
    hs.Pairwise (fun a b => a.offset ≤ b.offset) → (∀ h ∈ hs, strpos ≤ h.offset) →
    restFrom str hs strpos = weave str hs strpos
  | [], _, _, _ => rfl
  | head :: hs, strpos, hp, hle => by
    have hpos : strpos + (head.offset - strpos) = head.offset := by
      have := hle head List.mem_cons_self
      omega
    obtain ⟨hhead, hhs⟩ := List.pairwise_cons.mp hp
    rw [restFrom, weave, hpos, restFrom_eq_weave str hs head.offset hhs hhead]

/-- The length of what `toBytes` copies: the string data and every header. -/
theorem length_weave (str : List UInt8) : ∀ (hs : List Listhead) (strpos : Nat),
    hs.Pairwise (fun a b => a.offset ≤ b.offset) →
    (∀ h ∈ hs, strpos ≤ h.offset ∧ h.offset ≤ str.length) → strpos ≤ str.length →
    (weave str hs strpos).length =
      str.length - strpos + (hs.map fun h => h.encode.length).sum
  | [], _, _, _, _ => by simp [weave]
  | head :: hs, strpos, hp, hb, hs₀ => by
    obtain ⟨hhead, hhs⟩ := List.pairwise_cons.mp hp
    obtain ⟨h₁, h₂⟩ := hb head List.mem_cons_self
    have ih := length_weave str hs head.offset hhs
      (fun h hh => ⟨hhead h hh, (hb h (List.mem_cons_of_mem _ hh)).2⟩) h₂
    simp only [weave, List.length_append, List.length_take, List.length_drop, ih, List.map_cons,
      List.sum_cons]
    omega

theorem Closed.restFrom_eq_toBytes {w : Encbuf} (hw : w.Closed) :
    restFrom w.str w.lheads 0 = w.toBytes :=
  restFrom_eq_weave w.str w.lheads 0 hw.sorted (fun _ _ => Nat.zero_le _)

/-- The size of a closed buffer is the length of its encoding. -/
theorem Closed.length_toBytes {w : Encbuf} (hw : w.Closed) : w.toBytes.length = w.size := by
  rw [toBytes, length_weave w.str w.lheads 0 hw.sorted
    (fun h hh => ⟨Nat.zero_le _, hw.bounded h hh⟩) (Nat.zero_le _), size, hw.lhsize]
  rfl

end Encbuf

/-- **The three serialisations agree.** For every value that `EncodeToBytes` encodes to `bytes`,
`EncodeToReader` reports their length as its size, and reads of any sizes from its reader return
`bytes` in order, each reporting the end once nothing is left. And `Encode` into any writer that
keeps the `io.Writer` contract makes the writes it makes into that writer with a log, whose log
is a prefix of `bytes`, all of them when no write fails. -/
theorem serialisations_agree (t : RType) (v : Value) (bytes : List UInt8)
    (h : encodeValue t v = .ok bytes) :
    (∃ r, encodeToReader t v = .ok (bytes.length, r) ∧
        ∀ sizes, r.readAll sizes = chunks bytes sizes) ∧
      ∀ {σ ε : Type} (W : Writer σ ε), W.Lawful → ∀ s : σ,
        ∃ err s' log, encode t v W s = .ok (err, s') ∧
          encode t v W.record (s, []) = .ok (err, (s', log)) ∧
          log <+: bytes ∧ (err = none → log = bytes) := by
  unfold encodeValue at h
  rcases htag : t.tagError with _ | err
  · rw [htag] at h
    have hbytes : (write t {} v Encbuf.empty).toBytes = bytes := Except.ok.inj h
    have hc := write_closed t {} v Encbuf.closed_empty
    refine ⟨⟨⟨some (write t {} v Encbuf.empty), 0, 0, none⟩, ?_, fun sizes => ?_⟩, ?_⟩
    · -- the reported size
      simp only [encodeToReader, htag, ← hbytes, hc.length_toBytes]
    · -- the reader
      rw [EncReader.readAll_eq_chunks, ← hbytes, ← hc.restFrom_eq_toBytes]
      simp [EncReader.rest]
    · -- the writer
      intro σ ε W hW s
      obtain ⟨pre, hlog, hpre, hfull⟩ :=
        Encbuf.toWriterFrom_record hW (write t {} v Encbuf.empty).str
          (write t {} v Encbuf.empty).lheads 0 s [] hc.bounded
      have hrun := Encbuf.toWriterFrom_record_run W (write t {} v Encbuf.empty).str
        (write t {} v Encbuf.empty).lheads 0 s []
      rw [hc.restFrom_eq_toBytes, hbytes] at hpre hfull
      refine ⟨(Encbuf.toWriterFrom W.record (write t {} v Encbuf.empty).str
          (write t {} v Encbuf.empty).lheads 0 (s, [])).1,
        (Encbuf.toWriterFrom W.record (write t {} v Encbuf.empty).str
          (write t {} v Encbuf.empty).lheads 0 (s, [])).2.1, pre, ?_, ?_, hpre, hfull⟩
      · simp only [encode, htag, Encbuf.toWriter, ← hrun]
      · simp only [encode, htag, Encbuf.toWriter]
        rw [List.nil_append] at hlog
        rw [← hlog]
  · rw [htag] at h
    cases h

/-- A value of type `uint`, whose encoding is its one byte. -/
theorem serialisations_agree_uint :
    encodeValue (.uint 64) (.uint 5) = .ok [5] ∧
      ((∃ r, encodeToReader (.uint 64) (.uint 5) = .ok ([5].length, r) ∧
          ∀ sizes, r.readAll sizes = chunks [5] sizes) ∧
        ∀ {σ ε : Type} (W : Writer σ ε), W.Lawful → ∀ s : σ,
          ∃ err s' log, encode (.uint 64) (.uint 5) W s = .ok (err, s') ∧
            encode (.uint 64) (.uint 5) W.record (s, []) = .ok (err, (s', log)) ∧
            log <+: [5] ∧ (err = none → log = [5])) :=
  ⟨rfl, serialisations_agree (.uint 64) (.uint 5) [5] rfl⟩

end GoGaia.Rlp
