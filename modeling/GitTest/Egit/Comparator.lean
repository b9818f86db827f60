import Mathlib.Data.List.Basic

/-!
# Comparing a local file with a blob (GitResourceVariantComparator.java)

`compare` reads both streams in parallel into buffers of 8096 bytes and compares the
buffers and the numbers of bytes read.  A stream is the list of the pieces that its
reads return, each of between 1 and 8096 bytes; what is behind them is the end of the
stream, where every read returns -1, or an `IOException`.

    compareStreams ⟨a, false⟩ ⟨b, false⟩ = .ok (decide (a = b))  (compareStreams_eq)
-/

namespace Egit.Comparator

/-! ## Algorithm -/

abbrev Byte := UInt8

def bufferSize : Nat := 8096

@[ext]
structure Piece where
  bytes : List Byte
  size : 0 < bytes.length ∧ bytes.length ≤ bufferSize
  deriving DecidableEq

structure Stream where
  pieces : List Piece
  /-- After the pieces a read throws. -/
  fails : Bool

inductive Exn
  | ioException
  | coreException
  | classCastException
  deriving DecidableEq, Repr

/-- The result of `read`: the number of bytes, the buffer and the stream after it. -/
structure Read where
  count : Int
  buffer : List Byte
  rest : Stream

def Stream.read (s : Stream) (buffer : List Byte) : Except Exn Read :=
  match s.pieces with
  | p :: rest => .ok ⟨p.bytes.length, p.bytes ++ buffer.drop p.bytes.length, ⟨rest, s.fails⟩⟩
  | [] => if s.fails then .error .ioException else .ok ⟨-1, buffer, s⟩

theorem Stream.read_lt {s : Stream} {buffer : List Byte} {r : Read}
    (h : s.read buffer = .ok r) (hr : r.count ≠ -1) : r.rest.pieces.length < s.pieces.length := by
  unfold Stream.read at h
  split at h
  · next p rest hp =>
    cases h
    rw [hp]
    exact Nat.lt_succ_self _
  · split at h
    · cases h
    · cases h
      exact absurd rfl hr

def compareLoop (remoteStream stream : Stream) (remoteBytes bytes : List Byte) :
    Except Exn Bool :=
  if bytes = remoteBytes then
    match _hr : remoteStream.read remoteBytes with
    | .error e => .error e
    | .ok remoteRead =>
      match stream.read bytes with
      | .error e => .error e
      | .ok read =>
        if _hne : remoteRead.count ≠ read.count then .ok false
        else if _heof : read.count = -1 then .ok (decide (read.buffer = remoteRead.buffer))
        else compareLoop remoteRead.rest read.rest remoteRead.buffer read.buffer
  else .ok false
termination_by remoteStream.pieces.length
decreasing_by exact Stream.read_lt _hr (by omega)

/-- The part of `compare` between the streams and the `catch`es. -/
def compareStreams (remoteStream stream : Stream) : Except Exn Bool :=
  match remoteStream.read (List.replicate bufferSize 0) with
  | .error e => .error e
  | .ok remoteRead =>
    match stream.read (List.replicate bufferSize 0) with
    | .error e => .error e
    | .ok read =>
      if remoteRead.count ≠ read.count then .ok false
      else compareLoop remoteRead.rest read.rest remoteRead.buffer read.buffer

/-- An `IResource`; `contents` is what `getLocal` returns. -/
inductive Local
  | file (contents : Except Exn Stream)
  | container (location : String)
  | other

inductive Remote
  | file (contents : Except Exn Stream)
  | folder (exist : Bool) (cachePath : String)

def Remote.isContainer : Remote → Bool
  | .file _ => false
  | .folder _ _ => true

/-- The `catch`es of the file branch. -/
def caught : Except Exn Bool → Except Exn Bool
  | .error .ioException | .error .coreException => .ok false
  | .error .classCastException => .error .classCastException
  | .ok b => .ok b

def compareFile (contents : Except Exn Stream) (remote : Remote) : Except Exn Bool :=
  match remote with
  | .folder _ _ => .ok false
  | .file remoteContents =>
    caught (remoteContents.bind fun remoteStream => contents.bind fun stream =>
      compareStreams remoteStream stream)

def compareContainer (location : String) : Remote → Except Exn Bool
  | .file _ => .error .classCastException
  | .folder exist cachePath => if exist then .ok (location == cachePath) else .ok false

def compare (exist : Bool) (loc : Local) (remote : Option Remote) : Except Exn Bool :=
  match exist, remote with
  | false, _ | _, none => .ok false
  | true, some remote =>
    match loc with
    | .file contents => compareFile contents remote
    | .container location => compareContainer location remote
    | .other => .ok false

/-! ## Lemmas -/

theorem compareLoop_of_ne {remoteStream stream : Stream} {remoteBytes bytes : List Byte}
    (h : bytes ≠ remoteBytes) :
    compareLoop remoteStream stream remoteBytes bytes = .ok false := by
  unfold compareLoop
  rw [if_neg h]

theorem read_nil (buffer : List Byte) :
    (Stream.mk [] false).read buffer = .ok ⟨-1, buffer, ⟨[], false⟩⟩ := rfl

theorem read_cons (p : Piece) (rest : List Piece) (buffer : List Byte) :
    (Stream.mk (p :: rest) false).read buffer =
      .ok ⟨p.bytes.length, p.bytes ++ buffer.drop p.bytes.length, ⟨rest, false⟩⟩ := rfl

/-- The loop after reads of the pieces `p` and `q` into equal buffers. -/
theorem compareLoop_pieces {a b : List Piece}
    (ih : ∀ buffer, compareLoop ⟨a, false⟩ ⟨b, false⟩ buffer buffer = .ok (decide (a = b)))
    (p q : Piece) (hlen : p.bytes.length = q.bytes.length) (buffer : List Byte) :
    compareLoop ⟨a, false⟩ ⟨b, false⟩ (p.bytes ++ buffer.drop p.bytes.length)
      (q.bytes ++ buffer.drop q.bytes.length) = .ok (decide (p :: a = q :: b)) := by
  by_cases he : p = q
  · rw [he, ih]
    simp
  · have hne : q.bytes ++ buffer.drop q.bytes.length ≠ p.bytes ++ buffer.drop p.bytes.length := by
      intro hb
      exact he (Piece.ext (List.append_inj_left hb hlen.symm).symm)
    rw [compareLoop_of_ne hne]
    simp [he]

theorem compareLoop_eq (a b : List Piece) (buffer : List Byte) :
    compareLoop ⟨a, false⟩ ⟨b, false⟩ buffer buffer = .ok (decide (a = b)) := by
  induction a generalizing b buffer with
  | nil =>
    rw [compareLoop, if_pos rfl]
    cases b with
    | nil =>
      simp only [read_nil]
      rw [dif_neg (by omega), dif_pos trivial]
    | cons q b =>
      rfl
  | cons p a ih =>
    rw [compareLoop, if_pos rfl]
    cases b with
    | nil =>
      rfl
    | cons q b =>
      simp only [read_cons]
      by_cases hlen : p.bytes.length = q.bytes.length
      · rw [dif_neg (by omega)]
        exact compareLoop_pieces (ih b) p q hlen buffer
      · have hne : p :: a ≠ q :: b := by
          intro h
          cases h
          exact hlen rfl
        rw [dif_pos (by omega), decide_eq_false hne]

theorem compareStreams_eq (a b : List Piece) :
    compareStreams ⟨a, false⟩ ⟨b, false⟩ = .ok (decide (a = b)) := by
  unfold compareStreams
  cases a with
  | nil =>
    cases b with
    | nil =>
      simp only [read_nil]
      rw [if_neg (by omega), compareLoop_eq, decide_eq_true rfl, decide_eq_true trivial]
    | cons q b =>
      rfl
  | cons p a =>
    cases b with
    | nil =>
      rfl
    | cons q b =>
      simp only [read_cons]
      by_cases hlen : p.bytes.length = q.bytes.length
      · rw [if_neg (by omega)]
        exact compareLoop_pieces (compareLoop_eq a b) p q hlen _
      · have hne : p :: a ≠ q :: b := by
          intro h
          cases h
          exact hlen rfl
        rw [if_pos (by omega), decide_eq_false hne]

/-! ## Top theorem -/

def content (pieces : List Piece) : List Byte := (pieces.map Piece.bytes).flatten

/-- How a stream splits its bytes over the reads. -/
def split (pieces : List Piece) : List Nat := pieces.map fun p => p.bytes.length

theorem eq_iff_content_split (a b : List Piece) :
    a = b ↔ content a = content b ∧ split a = split b := by
  have hinj : Function.Injective Piece.bytes := fun _ _ h => Piece.ext h
  have h : a.map Piece.bytes = b.map Piece.bytes ↔ _ := List.eq_iff_flatten_eq
  rw [(List.map_injective_iff.2 hinj).eq_iff, List.map_map, List.map_map] at h
  exact h

theorem compare_file (loc remote : List Piece) :
    compare true (.file (.ok ⟨loc, false⟩)) (some (.file (.ok ⟨remote, false⟩))) =
      .ok (decide (remote = loc)) := by
  show caught (compareStreams ⟨remote, false⟩ ⟨loc, false⟩) = _
  rw [compareStreams_eq]
  rfl

/-- `compare` of a file with a blob returns, and what it returns is the comparison of the contents
exactly if the contents differ or are split alike. -/
theorem compare_exact_iff (loc remote : List Piece) :
    (∃ r, compare true (.file (.ok ⟨loc, false⟩)) (some (.file (.ok ⟨remote, false⟩))) = .ok r) ∧
      ((compare true (.file (.ok ⟨loc, false⟩)) (some (.file (.ok ⟨remote, false⟩))) = .ok true ↔
          content loc = content remote) ↔
        content loc ≠ content remote ∨ split loc = split remote) := by
  refine ⟨⟨_, compare_file loc remote⟩, ?_⟩
  rw [compare_file, Except.ok.injEq, decide_eq_true_eq, eq_comm, eq_iff_content_split]
  by_cases hc : content loc = content remote
  · simp [hc]
  · simp [hc]

/-- One byte sequence, read in one piece on one side and in two on the other. -/
theorem compare_splits_differently :
    compare true (.file (.ok ⟨[⟨[1, 2], by decide⟩], false⟩))
        (some (.file (.ok ⟨[⟨[1], by decide⟩, ⟨[2], by decide⟩], false⟩))) = .ok false ∧
      content [⟨[1, 2], by decide⟩] = content [⟨[1], by decide⟩, ⟨[2], by decide⟩] := by
  constructor
  · rfl
  · rfl

end Egit.Comparator
