import Mathlib.Logic.Function.Basic
import PointsTo.Engine.Engine

/-!
Reading two streams to their ends. What arrives next is a piece of either open stream, of
any size that one read can take, or its end; so one stream may end long before the other.
At every moment what has arrived of a stream and what it still holds make up what was
written to it.
-/

namespace PointsTo
namespace Capture

def isOpen (c : Capture) : Stream → Bool
  | .out => c.outOpen
  | .err => c.errOpen

/-- The most bytes that one read takes. -/
def chunkSize : Nat := 8192

def Arrival.data : Arrival → Bytes
  | chunk _ data => data
  | ended _ => []

def Arrival.dataOf (s : Stream) : Arrival → Bytes
  | chunk t data => if t = s then data else []
  | ended _ => []

/-- The middle of a capture, with what the streams still hold for the reader. -/
structure Reading where
  captured : Capture
  left : Stream → Bytes

namespace Reading

/-- What is written to the streams is all there is to read. A discarded stream goes to
another place, and the reader has nothing of it. -/
def start (mode : ErrorStream) (written : Stream → Bytes) : Reading where
  captured := Capture.start mode
  left
    | .out => written .out
    | .err => if mode = .discard then [] else written .err

/-- The reader stops once no stream is open. -/
def Done (r : Reading) : Prop :=
  ∀ s, r.captured.isOpen s = false

/-- A closed stream holds no more. -/
def Drained (r : Reading) : Prop :=
  ∀ s, r.captured.isOpen s = false → r.left s = []

/-- How often something of a stream may still arrive, its end included. -/
def sizeOf (r : Reading) (s : Stream) : Nat :=
  (r.left s).length + (r.captured.isOpen s).toNat

def size (r : Reading) : Nat :=
  r.sizeOf .out + r.sizeOf .err

end Reading

/-- One turn of the reader: a piece of an open stream arrives, or the end of one that
holds no more. -/
inductive Turn (mode : ErrorStream) : Reading → Arrival → Reading → Prop where
  | chunk {r : Reading} {s : Stream} {data rest : Bytes} (isOpen : r.captured.isOpen s = true)
      (holds : r.left s = data ++ rest) (nonempty : data ≠ []) (fits : data.length ≤ chunkSize) :
      Turn mode r (.chunk s data)
        ⟨r.captured.step mode (.chunk s data), Function.update r.left s rest⟩
  | ended {r : Reading} {s : Stream} (isOpen : r.captured.isOpen s = true)
      (holds : r.left s = []) : Turn mode r (.ended s) ⟨r.captured.step mode (.ended s), r.left⟩

inductive Trace (mode : ErrorStream) : Reading → List Arrival → Reading → Prop where
  | nil (r : Reading) : Trace mode r [] r
  | cons {r r' r'' : Reading} {a : Arrival} {arrivals : List Arrival} (first : Turn mode r a r')
      (rest : Trace mode r' arrivals r'') : Trace mode r (a :: arrivals) r''

/-- A list is put together from two others, each of which keeps its order. -/
inductive Interleaves : Bytes → Bytes → Bytes → Prop where
  | nil : Interleaves [] [] []
  | left {x : UInt8} {xs ys zs : Bytes} (h : Interleaves xs ys zs) :
      Interleaves (x :: xs) ys (x :: zs)
  | right {y : UInt8} {xs ys zs : Bytes} (h : Interleaves xs ys zs) :
      Interleaves xs (y :: ys) (y :: zs)

theorem Interleaves.append_left {xs ys zs : Bytes} (h : Interleaves xs ys zs) (data : Bytes) :
    Interleaves (data ++ xs) ys (data ++ zs) := by
  induction data with
  | nil => exact h
  | cons x data ih => exact .left ih

theorem Interleaves.append_right {xs ys zs : Bytes} (h : Interleaves xs ys zs) (data : Bytes) :
    Interleaves xs (data ++ ys) (data ++ zs) := by
  induction data with
  | nil => exact h
  | cons x data ih => exact .right ih

section Step

variable (mode : ErrorStream) (c : Capture) (s : Stream)

@[simp] theorem isOpen_step_chunk (t : Stream) (data : Bytes) :
    (c.step mode (.chunk t data)).isOpen s = c.isOpen s := by
  cases t with
  | out => simp only [step]; split <;> rfl
  | err => simp only [step]; split <;> (try split) <;> rfl

@[simp] theorem isOpen_step_ended (t : Stream) :
    (c.step mode (.ended t)).isOpen s = (c.isOpen s && t != s) := by
  cases t <;> cases s <;> simp [step, isOpen]

def Arrival.shown (a : Arrival) : Bytes :=
  if mode = .merge then a.data else a.dataOf .out

def Arrival.kept (a : Arrival) : Bytes :=
  if mode = .merge then [] else a.dataOf .err

end Step

section Turn

variable {mode : ErrorStream} {r r' : Reading} {a : Arrival}

/-- What arrives is taken from the front of what is left. -/
theorem Turn.left (h : Turn mode r a r') (s : Stream) : r.left s = a.dataOf s ++ r'.left s := by
  cases h with
  | @chunk t data rest _ holds _ _ =>
      by_cases hs : s = t
      · subst hs
        simp [Arrival.dataOf, holds]
      · simp [Arrival.dataOf, hs, Ne.symm hs]
  | ended => rfl

/-- What arrives is added to what was captured, and nothing else is. -/
theorem Turn.captured (h : Turn mode r a r') :
    r'.captured = r.captured.step mode a ∧
      r'.captured.output = r.captured.output ++ a.shown mode ∧
      r'.captured.errors = r.captured.errors ++ a.kept mode := by
  cases h with
  | @chunk t data rest isOpen _ _ _ =>
      refine ⟨rfl, ?_⟩
      cases t with
      | out =>
          have hout : r.captured.outOpen = true := isOpen
          cases mode <;> simp [step, hout, Arrival.shown, Arrival.kept, Arrival.data, Arrival.dataOf]
      | err =>
          have herr : r.captured.errOpen = true := isOpen
          cases mode <;> simp [step, herr, Arrival.shown, Arrival.kept, Arrival.data, Arrival.dataOf]
  | @ended t _ _ =>
      cases t <;> simp [step, Arrival.shown, Arrival.kept, Arrival.data, Arrival.dataOf]

/-- A stream is closed only when it holds no more. -/
theorem Turn.drained (h : Turn mode r a r') (hr : r.Drained) : r'.Drained := by
  intro s hs
  cases h with
  | @chunk t data rest isOpen _ _ _ =>
      rw [isOpen_step_chunk] at hs
      have hst : s ≠ t := by
        rintro rfl
        simp [isOpen] at hs
      simpa [hst] using hr s hs
  | @ended t _ holds =>
      by_cases hst : s = t
      · exact hst ▸ holds
      · refine hr s ?_
        simpa [Ne.symm hst] using hs

/-- Every turn takes something away, from the stream that it concerns. -/
theorem Turn.size_lt (h : Turn mode r a r') : r'.size < r.size := by
  cases h with
  | @chunk t data rest isOpen holds nonempty _ =>
      have hlength := congrArg List.length holds
      have hpos := List.length_pos_iff.2 nonempty
      rw [List.length_append] at hlength
      cases t <;> simp [Reading.size, Reading.sizeOf] <;> omega
  | @ended t isOpen _ =>
      have hne : (Stream.out != Stream.err) = true ∧ (Stream.err != Stream.out) = true := by decide
      cases t <;> simp [Reading.size, Reading.sizeOf, isOpen, hne]

/-- As long as a stream is open, something arrives. -/
theorem exists_turn {s : Stream} (hs : r.captured.isOpen s = true) : ∃ a r', Turn mode r a r' := by
  cases hleft : r.left s with
  | nil => exact ⟨_, _, .ended hs hleft⟩
  | cons x rest =>
      have hx : r.left s = [x] ++ rest := hleft
      exact ⟨_, _, .chunk hs hx (by simp) (by simp [chunkSize])⟩

end Turn

section Trace

variable {mode : ErrorStream} {r r' r'' : Reading} {arrivals later : List Arrival}

theorem Trace.append (h : Trace mode r arrivals r') (h' : Trace mode r' later r'') :
    Trace mode r (arrivals ++ later) r'' := by
  induction h with
  | nil => exact h'
  | cons first _ ih => exact .cons first (ih h')

theorem Trace.left (h : Trace mode r arrivals r') (s : Stream) :
    r.left s = arrivals.flatMap (Arrival.dataOf s) ++ r'.left s := by
  induction h with
  | nil => rfl
  | cons first _ ih => rw [first.left s, ih, List.flatMap_cons, List.append_assoc]

theorem Trace.captured (h : Trace mode r arrivals r') :
    r'.captured = arrivals.foldl (step mode) r.captured ∧
      r'.captured.output = r.captured.output ++ arrivals.flatMap (Arrival.shown mode) ∧
      r'.captured.errors = r.captured.errors ++ arrivals.flatMap (Arrival.kept mode) := by
  induction h with
  | nil => simp
  | cons first _ ih =>
      have hfirst := first.captured
      refine ⟨?_, ?_, ?_⟩
      · rw [ih.1, hfirst.1, List.foldl_cons]
      · rw [ih.2.1, hfirst.2.1, List.flatMap_cons, List.append_assoc]
      · rw [ih.2.2, hfirst.2.2, List.flatMap_cons, List.append_assoc]

theorem Trace.drained (h : Trace mode r arrivals r') (hr : r.Drained) : r'.Drained := by
  induction h with
  | nil => exact hr
  | cons first _ ih => exact ih (first.drained hr)

theorem Trace.length_le (h : Trace mode r arrivals r') : arrivals.length + r'.size ≤ r.size := by
  induction h with
  | nil => simp
  | cons first _ ih =>
      have hlt := first.size_lt
      rw [List.length_cons]
      omega

/-- Streams that are read to their ends are interleaved in what arrives. -/
theorem Trace.interleaves (h : Trace mode r arrivals r') (hend : ∀ s, r'.left s = []) :
    Interleaves (r.left .out) (r.left .err) (arrivals.flatMap Arrival.data) := by
  induction h with
  | nil r =>
      rw [hend .out, hend .err]
      exact .nil
  | @cons r r₁ _ a _ first _ ih =>
      have hrest := ih hend
      rw [first.left .out, first.left .err, List.flatMap_cons]
      cases a with
      | ended t => exact hrest
      | chunk t data =>
          cases t with
          | out => exact hrest.append_left data
          | err => exact hrest.append_right data

end Trace

section Deliver

variable {mode : ErrorStream} {c : Capture} {left rest : Stream → Bytes} {s : Stream}

theorem step_chunk_append (mode : ErrorStream) (c : Capture) (s : Stream) (a b : Bytes) :
    (c.step mode (.chunk s a)).step mode (.chunk s b) = c.step mode (.chunk s (a ++ b)) := by
  cases s with
  | out => cases hout : c.outOpen <;> simp [step, hout]
  | err => cases herr : c.errOpen <;> cases mode <;> simp [step, herr]

theorem step_chunk_of_closed (data : Bytes) (hs : c.isOpen s = false) :
    c.step mode (.chunk s data) = c := by
  cases s with
  | out => simp [step, show c.outOpen = false from hs]
  | err => simp [step, show c.errOpen = false from hs]

/-- However much a stream holds, it can arrive bit by bit. -/
theorem exists_trace_chunk {data more : Bytes} (hs : c.isOpen s = true)
    (hleft : left s = data ++ more) :
    ∃ arrivals, Trace mode ⟨c, left⟩ arrivals
      ⟨c.step mode (.chunk s data), Function.update left s more⟩ := by
  induction data generalizing c left with
  | nil =>
      have hsame : c.step mode (.chunk s []) = c := by
        cases s <;> simp [step]
      rw [hsame, Function.update_eq_self_iff.2 hleft.symm]
      exact ⟨[], .nil _⟩
  | cons x data ih =>
      have hx : left s = [x] ++ (data ++ more) := hleft
      have hturn : Turn mode ⟨c, left⟩ (.chunk s [x])
          ⟨c.step mode (.chunk s [x]), Function.update left s (data ++ more)⟩ :=
        .chunk hs hx (by simp) (by simp [chunkSize])
      obtain ⟨arrivals, htrace⟩ := @ih (c.step mode (.chunk s [x]))
        (Function.update left s (data ++ more)) (by simpa using hs) (by simp)
      rw [step_chunk_append, Function.update_idem] at htrace
      exact ⟨_ :: arrivals, .cons hturn htrace⟩

/-- A stream that holds no more can end, unless it has. -/
theorem exists_trace_ended (mode : ErrorStream) (c : Capture) (hs : left s = []) :
    ∃ arrivals, Trace mode ⟨c, left⟩ arrivals ⟨c.step mode (.ended s), left⟩ := by
  cases hopen : c.isOpen s with
  | true => exact ⟨[.ended s], .cons (.ended hopen hs) (.nil _)⟩
  | false =>
      have hsame : c.step mode (.ended s) = c := by
        obtain ⟨output, errors, outOpen, errOpen⟩ := c
        cases s with
        | out =>
            cases (hopen : outOpen = false)
            rfl
        | err =>
            cases (hopen : errOpen = false)
            rfl
      exact ⟨[], hsame.symm ▸ .nil _⟩

/-- What a call prints can arrive so that the streams are captured as its actions say. -/
theorem exists_trace_actions (actions : List Action)
    (hopen : ∀ s, c.isOpen s = true →
      left s = (actions.filterMap Action.arrival?).flatMap (Arrival.dataOf s) ++ rest s)
    (hclosed : ∀ s, c.isOpen s = false → left s = rest s) :
    ∃ arrivals, Trace mode ⟨c, left⟩ arrivals
      ⟨(actions.filterMap Action.arrival?).foldl (step mode) c, rest⟩ := by
  induction actions generalizing c left with
  | nil =>
      have hleft : left = rest := by
        funext s
        cases hs : c.isOpen s with
        | true => simpa using hopen s hs
        | false => exact hclosed s hs
      exact ⟨[], hleft ▸ .nil _⟩
  | cons action actions ih =>
      cases action with
      | write path data | makeDirectory path | makeLink path target | remove path =>
          exact ih hopen hclosed
      | print t data =>
          have harrivals : (Action.print t data :: actions).filterMap Action.arrival? =
              .chunk t data :: actions.filterMap Action.arrival? := rfl
          simp only [harrivals, List.flatMap_cons, List.append_assoc, List.foldl_cons] at hopen ⊢
          cases ht : c.isOpen t with
          | false =>
              rw [step_chunk_of_closed data ht]
              refine ih (fun s hs => ?_) hclosed
              have hts : t ≠ s := by
                rintro rfl
                simp [ht] at hs
              simpa [Arrival.dataOf, hts] using hopen s hs
          | true =>
              have hdata : left t = data ++
                  ((actions.filterMap Action.arrival?).flatMap (Arrival.dataOf t) ++ rest t) := by
                simpa [Arrival.dataOf] using hopen t ht
              obtain ⟨first, hfirst⟩ := @exists_trace_chunk mode _ _ _ _ _ ht hdata
              have hrest := @ih (c.step mode (.chunk t data)) (Function.update left t
                ((actions.filterMap Action.arrival?).flatMap (Arrival.dataOf t) ++ rest t)) ?_ ?_
              · obtain ⟨later, hlater⟩ := hrest
                exact ⟨first ++ later, hfirst.append hlater⟩
              · intro s hs
                rw [isOpen_step_chunk] at hs
                by_cases hst : s = t
                · subst hst
                  simp
                · simpa [Arrival.dataOf, hst, Ne.symm hst] using hopen s hs
              · intro s hs
                rw [isOpen_step_chunk] at hs
                have hst : s ≠ t := by
                  rintro rfl
                  simp [ht] at hs
                simpa [hst] using hclosed s hs

end Deliver

/-- All that a finished reading has to show for what was written to the streams. -/
structure Complete (mode : ErrorStream) (written : Stream → Bytes) (arrivals : List Arrival)
    (r : Reading) : Prop where
  drained : ∀ s, r.left s = []
  collected : r.captured = collect mode arrivals
  separate : mode = .separate →
    r.captured.output = written .out ∧ r.captured.errors = written .err
  discard : mode = .discard → r.captured.output = written .out ∧ r.captured.errors = []
  merge : mode = .merge → r.captured.errors = [] ∧
    r.captured.output = arrivals.flatMap Arrival.data ∧
    (∀ s, arrivals.flatMap (Arrival.dataOf s) = written s) ∧
    Interleaves (written .out) (written .err) r.captured.output

section Complete

variable {mode : ErrorStream} {written : Stream → Bytes} {arrivals : List Arrival} {r : Reading}

theorem drained_start (mode : ErrorStream) (written : Stream → Bytes) :
    (Reading.start mode written).Drained := by
  intro s hs
  cases s with
  | out => cases hs
  | err =>
      have hmode : mode = .discard := by
        simpa [Reading.start, Capture.start, isOpen] using hs
      simp [Reading.start, hmode]

theorem size_start_le (mode : ErrorStream) (written : Stream → Bytes) :
    (Reading.start mode written).size ≤ (written .out).length + (written .err).length + 2 := by
  cases mode <;>
    simp [Reading.size, Reading.sizeOf, Reading.start, Capture.start, isOpen] <;> omega

theorem Trace.complete (h : Trace mode (.start mode written) arrivals r) (hdone : r.Done) :
    Complete mode written arrivals r := by
  have hempty : ∀ s, r.left s = [] := fun s =>
    h.drained (drained_start mode written) s (hdone s)
  have hsent : ∀ s, (Reading.start mode written).left s =
      arrivals.flatMap (Arrival.dataOf s) := fun s => by
    rw [h.left s, hempty s, List.append_nil]
  obtain ⟨hcollect, houtput, herrors⟩ := h.captured
  refine ⟨hempty, hcollect, ?_, ?_, ?_⟩
  · rintro rfl
    exact ⟨houtput.trans (hsent .out).symm, herrors.trans (hsent .err).symm⟩
  · rintro rfl
    exact ⟨houtput.trans (hsent .out).symm, herrors.trans (hsent .err).symm⟩
  · rintro rfl
    have hinterleaves := h.interleaves hempty
    refine ⟨?_, houtput, fun s => ?_, ?_⟩
    · rw [herrors]
      exact List.flatMap_eq_nil_iff.2 fun _ _ => rfl
    · rw [← hsent s]
      cases s <;> rfl
    · rw [houtput]
      exact hinterleaves

/-- Where the streams are not merged, no choice of what arrives next shows in the end. -/
theorem Complete.captured_eq (h : Complete mode written arrivals r) (hdone : r.Done)
    (hmode : mode ≠ .merge) :
    r.captured = ⟨written .out, if mode = .separate then written .err else [], false, false⟩ := by
  have hout : r.captured.outOpen = false := hdone .out
  have herr : r.captured.errOpen = false := hdone .err
  calc r.captured
      = ⟨r.captured.output, r.captured.errors, r.captured.outOpen, r.captured.errOpen⟩ := rfl
    _ = ⟨written .out, if mode = .separate then written .err else [], false, false⟩ := by
      rw [hout, herr]
      cases mode with
      | merge => exact absurd rfl hmode
      | discard => rw [(h.discard rfl).1, (h.discard rfl).2, if_neg (by decide)]
      | separate => rw [(h.separate rfl).1, (h.separate rfl).2, if_pos rfl]

end Complete

end Capture

def Response.written (r : Response) (s : Stream) : Bytes :=
  r.arrivals.flatMap (Capture.Arrival.dataOf s)

namespace Capture

/-- The output that is recorded of a call is that of a reading of its streams. -/
theorem exists_trace_finished (mode : ErrorStream) (response : Response) :
    ∃ arrivals r, Trace mode (.start mode response.written) arrivals r ∧ r.Done ∧
      (response.finished mode).output = r.captured.output ∧
      (response.finished mode).stderr = r.captured.errors := by
  let c := (response.actions.filterMap Action.arrival?).foldl (step mode) (Capture.start mode)
  have hprinted : ∃ arrivals, Trace mode (.start mode response.written) arrivals ⟨c, fun _ => []⟩ := by
    refine exists_trace_actions response.actions (fun s hs => ?_) fun s hs =>
      drained_start mode response.written s hs
    have hwritten : response.written s =
        (response.actions.filterMap Action.arrival?).flatMap (Arrival.dataOf s) ++ [] := by
      simp [Response.written, Response.arrivals, List.flatMap_append, Arrival.dataOf]
    rw [← hwritten]
    cases s with
    | out => rfl
    | err =>
        have hmode : mode ≠ .discard := by
          simpa [Capture.start, isOpen] using hs
        exact if_neg hmode
  obtain ⟨printed, hprinted⟩ := hprinted
  obtain ⟨ending, hending⟩ := @exists_trace_ended (fun _ => []) .out mode c rfl
  obtain ⟨ending', hending'⟩ :=
    @exists_trace_ended (fun _ => []) .err mode (c.step mode (.ended .out)) rfl
  have hcollect : (c.step mode (.ended .out)).step mode (.ended .err) =
      collect mode response.arrivals := by
    rw [collect, Response.arrivals, List.foldl_append]
    rfl
  rw [hcollect] at hending'
  refine ⟨_, _, (hprinted.append hending).append hending', fun s => ?_, rfl, rfl⟩
  rw [← hcollect]
  cases s <;> simp

/-- Whatever arrives first and in whatever pieces, the streams are read to their ends, and
all that was written to them is captured, in order. -/
theorem reading_loses_and_mixes_nothing (mode : ErrorStream) (written : Stream → Bytes) :
    (∀ arrivals r, Trace mode (.start mode written) arrivals r →
      arrivals.length ≤ (written .out).length + (written .err).length + 2 ∧
      (r.Done ↔ ∀ a r', ¬ Turn mode r a r') ∧
      (r.Done → Complete mode written arrivals r)) ∧
    (mode ≠ .merge → ∀ arrivals r arrivals' r',
      Trace mode (.start mode written) arrivals r → r.Done →
      Trace mode (.start mode written) arrivals' r' → r'.Done → r'.captured = r.captured) ∧
    ∀ response : Response, response.written = written →
      ∃ arrivals r, Trace mode (.start mode written) arrivals r ∧ r.Done ∧
        (response.finished mode).output = r.captured.output ∧
        (response.finished mode).stderr = r.captured.errors := by
  refine ⟨fun arrivals r h => ⟨?_, ⟨fun hdone a r' hturn => ?_, fun hnone s => ?_⟩, h.complete⟩,
    fun hmode arrivals r arrivals' r' h hdone h' hdone' => ?_, ?_⟩
  · have hlength := h.length_le
    have hsize := size_start_le mode written
    omega
  · cases hturn with
    | chunk isOpen | ended isOpen => simp [hdone _] at isOpen
  · cases hs : r.captured.isOpen s with
    | false => rfl
    | true =>
        obtain ⟨a, r', hturn⟩ := @exists_turn mode r s hs
        exact absurd hturn (hnone a r')
  · rw [(h.complete hdone).captured_eq hdone hmode, (h'.complete hdone').captured_eq hdone' hmode]
  · rintro response rfl
    exact exists_trace_finished mode response

end Capture
end PointsTo
