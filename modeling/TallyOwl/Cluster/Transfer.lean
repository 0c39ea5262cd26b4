import TallyOwl.Cluster.FanOut
import TallyOwl.Store.Segment.Projection

/-! Fetching a sealed segment from another node (`transfer.rs`). The client asks for a part at a time and
believes nothing of a reply; the server keeps the bytes of the one segment it last read for anybody. What a
sealed segment holds and the digest are parameters. -/
namespace TallyOwl.Transfer
open Lib SegmentFormat List OrderedMap
open FanOut (TallyOwlError)

def defaultChunkBytes : Nat := 4 * 1024 * 1024

def maxSegmentTransferBytes : Nat := 4 * 1024 * 1024 * 1024

structure SegmentSummary where
  segmentId : String
  totalBytes : Nat
  digest : Bytes
  deriving DecidableEq

structure SegmentTransfer where
  segmentId : String
  offset : Nat
  data : Bytes
  totalBytes : Nat
  last : Bool
  wholeDigest : Option Bytes
  deriving DecidableEq

abbrev Reply := Checked TallyOwlError SegmentTransfer

/-! The client. -/

/-- One `fetch_whole` under way. -/
structure Fetch where
  offset : Nat
  bytes : Bytes
  fetches : Nat
  latest : Nat
  ended : Option (Checked TallyOwlError Bytes)
  deriving DecidableEq

section
variable (summary : SegmentSummary)

/-- The size is what a peer said, so it is checked before it is used. -/
def Fetch.start : Fetch :=
  ⟨0, [], 0, 0,
    if summary.totalBytes > maxSegmentTransferBytes then
      some (.fail ⟨.invalidArgument, s!"Segment `{summary.segmentId}` was listed at {summary.totalBytes} bytes, " ++
        s!"which is more than the {maxSegmentTransferBytes} bytes one segment may be, so it was not fetched."⟩)
    else none⟩

def Fetch.stop (f : Fetch) (message : String) : Fetch := { f with ended := some (.fail ⟨.internal, message⟩) }

def Fetch.take (f : Fetch) (reply : Reply) : Fetch :=
  match reply with
  | .error e => { f with fetches := f.fetches + 1, latest := 0, ended := some (.error e) }
  | .ok chunk =>
      let f := { f with fetches := f.fetches + 1, latest := chunk.data.length }
      if chunk.offset ≠ f.offset then
        f.stop (s!"Segment `{summary.segmentId}` answered at byte {chunk.offset} and the request asked for byte " ++
          s!"{f.offset}, so the copy stopped.")
      else if chunk.totalBytes ≠ summary.totalBytes then
        f.stop (s!"Segment `{summary.segmentId}` was listed at {summary.totalBytes} bytes and is now " ++
          s!"{chunk.totalBytes} bytes, so the copy stopped rather than mixing two versions of it.")
      else if chunk.data = [] ∧ chunk.last = false then
        f.stop s!"Segment `{summary.segmentId}` sent nothing at byte {f.offset} and did not say it had finished."
      else
        let f := { f with offset := f.offset + chunk.data.length, bytes := f.bytes ++ chunk.data }
        if chunk.last then { f with ended := some (.ok f.bytes) }
        else if f.offset > summary.totalBytes then
          f.stop s!"Segment `{summary.segmentId}` sent more than the {summary.totalBytes} bytes it was listed at."
        else f

variable {σ : Type} (peer : σ → (offset maxBytes : Nat) → Reply × σ) (chunkBytes : Nat)

/-- One turn of the loop: ask, and take the reply. A fetch that ended stays as it is. -/
def turn (s : Fetch × σ) : Fetch × σ :=
  if s.1.ended.isSome then s
  else
    let answered := peer s.2 s.1.offset chunkBytes
    (s.1.take summary answered.1, answered.2)

def fetchWhole (turns : Nat) (s : σ) : Option (Checked TallyOwlError Bytes) :=
  ((turn summary peer chunkBytes)^[turns] (.start summary, s)).1.ended

end

/-! The server. -/

/-- What a node keeps for those that fetch from it: which segments it has, the digests it knows and the
segment being read. -/
structure StoreSegments where
  held : List Id
  digests : OrderedMap Id (Nat × Bytes)
  reading : Option (Id × Bytes)

section
variable (content : Id → Bytes) (hash : Bytes → Bytes) (tablet : String)

def readSegmentBytes (s : StoreSegments) (id : Id) : Except TallyOwlError Bytes :=
  if id ∈ s.held then .ok (content id)
  else .error ⟨.invalidArgument, s!"This node holds no segment named {hex id.bytes}."⟩

def bytesOf (s : StoreSegments) (id : Id) : Except TallyOwlError Bytes × StoreSegments :=
  match s.reading.filter fun reading => reading.1 = id with
  | some reading => (.ok reading.2, s)
  | none =>
      match readSegmentBytes content s id with
      | .error e => (.error e, s)
      | .ok bytes => (.ok bytes, { s with reading := some (id, bytes) })

def checkTablet (asked : String) : Except TallyOwlError Unit :=
  if asked = tablet then .ok ()
  else .error ⟨.notFound,
    s!"This node holds `{tablet}` and not `{asked}`. It moved, or it was never placed here."⟩

def parseSegmentId (text : String) : Checked TallyOwlError Id :=
  match hexBytes text with
  | .error (.fault f) => .error (.fault f)
  | .ok (some bytes) => if bytes.length = 16 then .ok (Id.ofBytes bytes) else refused
  | _ => refused
where
  refused := Checked.fail
    ⟨.invalidArgument, s!"`{text}` is not a segment identifier. One is 32 hexadecimal characters."⟩

/-- Cut one part out of a segment. The digest of the whole travels on the last part. -/
def part (s : StoreSegments) (id : Id) (segmentId : String) (offset maxBytes : Nat) (bytes : Bytes) : Reply :=
  let total := bytes.length
  if offset > total then
    .fail ⟨.invalidArgument, s!"Segment `{segmentId}` holds {total} bytes and the request starts at {offset}."⟩
  else
    let taken := min (min (max maxBytes 1) defaultChunkBytes) (total - offset)
    let last := offset + taken ≥ total
    .ok {
      segmentId := segmentId
      offset := offset
      data := (bytes.drop offset).take taken
      totalBytes := total
      last := last
      wholeDigest := if last then some (((s.digests.get? id).map Prod.snd).getD (hash bytes)) else none }

/-- Behind the last part the fetch is over, so the bytes are not held past it. -/
def release (s : StoreSegments) (reply : Reply) : StoreSegments :=
  match reply with
  | .ok chunk => if chunk.last then { s with reading := none } else s
  | .error _ => s

def ask (s : StoreSegments) (asked segmentId : String) : Checked TallyOwlError (Id × Bytes) × StoreSegments :=
  match checkTablet tablet asked, parseSegmentId segmentId with
  | .error e, _ => (Checked.fail e, s)
  | .ok (), .error stop => (.error stop, s)
  | .ok (), .ok id =>
      match bytesOf content s id with
      | (.error e, s) => (Checked.fail e, s)
      | (.ok bytes, s) => (.ok (id, bytes), s)

def read (s : StoreSegments) (asked segmentId : String) (offset maxBytes : Nat) : Reply × StoreSegments :=
  match ask content tablet s asked segmentId with
  | (.error stop, s) => (.error stop, s)
  | (.ok found, s) =>
      let reply := part hash s found.1 segmentId offset maxBytes found.2
      (reply, release s reply)

/-- Every sealed segment, as a peer is told of it. A digest that is known is not computed again. -/
def list (s : StoreSegments) : List SegmentSummary × StoreSegments :=
  let known := s.held.map fun id =>
    (id, (s.digests.get? id).getD ((content id).length, hash (content id)))
  (known.map fun entry => ⟨hex entry.1.bytes, entry.2.1, entry.2.2⟩, { s with digests := .ofList known })

end

/-! Fetches that share a server. A lock is held for one step of a read at a time, so the steps of reads interleave. -/

inductive Phase where
  | asks
  | holds (found : Id × Bytes)
  | replies (reply : Reply)
  deriving DecidableEq

structure Fetching where
  segment : Id
  summary : SegmentSummary
  chunkBytes : Nat
  fetch : Fetch
  phase : Phase
  deriving DecidableEq

structure Node where
  server : StoreSegments
  fetches : List Fetching

inductive Event where
  | publishes (segment : Id)
  | retires (segment : Id)
  | begins (segment : Id) (chunkBytes : Nat)
  | goes (fetch : Nat)

section
variable (content : Id → Bytes) (hash : Bytes → Bytes) (tablet : String)

def Fetching.step (server : StoreSegments) (f : Fetching) : StoreSegments × Fetching :=
  match f.phase with
  | .asks =>
      match ask content tablet server tablet f.summary.segmentId with
      | (.error stop, server) => (server, { f with phase := .replies (.error stop) })
      | (.ok found, server) => (server, { f with phase := .holds found })
  | .holds found =>
      (server, { f with
        phase := .replies (part hash server found.1 f.summary.segmentId f.fetch.offset f.chunkBytes found.2) })
  | .replies reply => (release server reply, { f with fetch := f.fetch.take f.summary reply, phase := .asks })

def Node.step (s : Node) : Event → Option Node
  | .publishes segment => some { s with server.held := segment :: s.server.held }
  | .retires segment => some { s with server.held := s.server.held.filter (· ≠ segment) }
  | .begins segment chunkBytes => do
      -- a fetch is of a segment that a listing named
      let listed := list content hash s.server
      let summary ← listed.1.find? (·.segmentId = hex segment.bytes)
      some ⟨listed.2, s.fetches ++ [⟨segment, summary, chunkBytes, .start summary, .asks⟩]⟩
  | .goes i => do
      let f ← s.fetches[i]?
      if f.fetch.ended.isSome then none
      else
        let next := f.step content hash tablet s.server
        some ⟨next.1, s.fetches.set i next.2⟩

def Node.start : Node := ⟨⟨[], ∅, none⟩, []⟩

def Stays (s : Node) : Event → Prop
  | .retires segment => ∀ f ∈ s.fetches, f.segment = segment → f.fetch.ended ≠ none
  | _ => True

instance (s : Node) : DecidablePred (Stays s)
  | .retires segment => inferInstanceAs (Decidable (∀ f ∈ s.fetches, f.segment = segment → f.fetch.ended ≠ none))
  | .publishes _ => inferInstanceAs (Decidable True)
  | .begins _ _ => inferInstanceAs (Decidable True)
  | .goes _ => inferInstanceAs (Decidable True)

end

/-! What any peer can do to a client. -/

section
variable {summary : SegmentSummary} {f : Fetch}

/-- What a fetch has made of the replies so far, whatever they were. -/
structure Fetch.Bounded (summary : SegmentSummary) (f : Fetch) : Prop where
  running : f.ended = none → f.bytes.length = f.offset ∧ f.fetches ≤ f.offset ∧ f.offset ≤ summary.totalBytes
  calls : f.fetches ≤ summary.totalBytes + 1
  held : f.bytes.length ≤ summary.totalBytes + f.latest

theorem Fetch.bounded_start : (Fetch.start summary).Bounded summary := ⟨by simp [start], by simp [start], by simp [start]⟩

theorem Fetch.Bounded.take (bounded : f.Bounded summary) (running : f.ended = none) (reply : Reply) :
    (f.take summary reply).Bounded summary := by
  obtain ⟨length, calls, inside⟩ := bounded.running running
  -- every branch but the last ends the fetch
  cases reply with
  | error stop => exact ⟨by simp [Fetch.take], by simp only [Fetch.take]; omega, by simp only [Fetch.take]; omega⟩
  | ok chunk =>
    unfold Fetch.take
    simp only
    split_ifs with place size nothing last past
    · exact ⟨by simp [Fetch.stop], by simp only [Fetch.stop]; omega, by simp only [Fetch.stop]; omega⟩
    · exact ⟨by simp [Fetch.stop], by simp only [Fetch.stop]; omega, by simp only [Fetch.stop]; omega⟩
    · exact ⟨by simp [Fetch.stop], by simp only [Fetch.stop]; omega, by simp only [Fetch.stop]; omega⟩
    · exact ⟨by simp, by simp only; omega, by simp only [length_append]; omega⟩
    · exact ⟨by simp [Fetch.stop], by simp only [Fetch.stop]; omega, by
        simp only [Fetch.stop, length_append]; omega⟩
    · have some : 0 < chunk.data.length := length_pos_of_ne_nil fun empty => nothing ⟨empty, by simpa using last⟩
      exact ⟨fun _ => by simp only [length_append]; omega, by simp only; omega, by
        simp only [length_append]; omega⟩

variable {σ : Type} {peer : σ → (offset maxBytes : Nat) → Reply × σ} {chunkBytes : Nat} {s : Fetch × σ}

theorem Fetch.Bounded.asked (bounded : s.1.Bounded summary) : (turn summary peer chunkBytes s).1.Bounded summary := by
  unfold turn
  split_ifs with ended
  · exact bounded
  · exact bounded.take (by simpa using ended) _

theorem Fetch.fetches_take (reply : Reply) : (f.take summary reply).fetches = f.fetches + 1 := by
  cases reply with
  | error stop => rfl
  | ok chunk =>
    unfold Fetch.take
    simp only
    split_ifs <;> rfl

theorem fetches_turns (turns : Nat) : ((turn summary peer chunkBytes)^[turns] s).1.ended = none →
      ((turn summary peer chunkBytes)^[turns] s).1.fetches = s.1.fetches + turns := by
  induction turns with
  | zero => exact fun _ => rfl
  | succ turns ih =>
    rw [Function.iterate_succ_apply']
    generalize (turn summary peer chunkBytes)^[turns] s = t at ih ⊢
    unfold turn
    split_ifs with ended
    · intro running
      simp [running] at ended
    · intro _
      have before := ih (by simpa using ended)
      simp only [Fetch.fetches_take]
      omega

theorem Fetch.Bounded.turns (bounded : s.1.Bounded summary) (turns : Nat) :
    ((turn summary peer chunkBytes)^[turns] s).1.Bounded summary := by
  induction turns with
  | zero => exact bounded
  | succ turns ih =>
    rw [Function.iterate_succ_apply']
    exact ih.asked

theorem fetchWhole_ends (summary : SegmentSummary) (peer : σ → (offset maxBytes : Nat) → Reply × σ) (chunkBytes : Nat)
    (s : σ) : ∃ result, fetchWhole summary peer chunkBytes (summary.totalBytes + 1) s = some result := by
  refine Option.isSome_iff_exists.mp (Option.isSome_iff_ne_none.mpr fun running => ?_)
  have bounded : ((turn summary peer chunkBytes)^[summary.totalBytes + 1] (.start summary, s)).1.Bounded summary :=
    Fetch.bounded_start.turns _
  have calls := fetches_turns _ running
  have most := (bounded.running running).2
  simp only [Fetch.start] at calls most
  omega

end

/-! What the server answers. -/

section
variable {content : Id → Bytes} {hash : Bytes → Bytes} {s : StoreSegments} {id : Id}

structure StoreSegments.Sound (content : Id → Bytes) (hash : Bytes → Bytes) (s : StoreSegments) : Prop where
  reading : ∀ kept, s.reading = some kept → kept.2 = content kept.1
  digests : ∀ id known, s.digests.get? id = some known → known = ((content id).length, hash (content id))

@[simp] theorem held_release (reply : Reply) : (release s reply).held = s.held := by
  unfold release
  split
  · split_ifs <;> rfl
  · rfl

theorem StoreSegments.Sound.release (sound : s.Sound content hash) (reply : Reply) :
    (release s reply).Sound content hash := by
  unfold Transfer.release
  split
  · split_ifs
    · exact ⟨fun _ kept => (nomatch kept), sound.digests⟩
    · exact sound
  · exact sound

theorem StoreSegments.Sound.bytesOf (sound : s.Sound content hash) (id : Id) :
    (bytesOf content s id).2.Sound content hash ∧ (bytesOf content s id).2.held = s.held ∧
      (id ∈ s.held → (bytesOf content s id).1 = .ok (content id)) := by
  unfold Transfer.bytesOf
  split
  · rename_i reading kept
    obtain ⟨there, same⟩ := Option.filter_eq_some_iff.mp kept
    refine ⟨sound, rfl, fun _ => ?_⟩
    rw [sound.reading reading there, of_decide_eq_true same]
  · unfold readSegmentBytes
    split
    · rename_i failed
      split_ifs at failed with held
      exact ⟨sound, rfl, fun here => absurd here held⟩
    · rename_i bytes found
      split_ifs at found with held
      cases found
      exact ⟨⟨fun kept is => by obtain rfl := Option.some.inj is; rfl, sound.digests⟩, rfl, fun _ => rfl⟩

theorem StoreSegments.Sound.list (sound : s.Sound content hash) : (list content hash s).2.Sound content hash ∧
      (list content hash s).1 = s.held.map fun id => ⟨hex id.bytes, (content id).length, hash (content id)⟩ := by
  have known : ∀ id, (s.digests.get? id).getD ((content id).length, hash (content id)) =
      ((content id).length, hash (content id)) := by
    intro id
    cases found : s.digests.get? id with
    | none => rfl
    | some known => exact sound.digests id known found
  refine ⟨⟨sound.reading, fun id kept found => ?_⟩, ?_⟩
  · rcases mem_foldl_insert (get?_eq_some.mp found) with none | ⟨entry, inside, same⟩
    · simp at none
    · obtain ⟨other, -, rfl⟩ := mem_map.mp inside
      obtain ⟨rfl, rfl⟩ := Prod.mk.inj same
      exact known _
  · simp [Transfer.list, known]

theorem parseSegmentId_hex (id : Id) : parseSegmentId (hex id.bytes) = .ok id := by
  simp [parseSegmentId, hexBytes_hex]

structure Follows (whole : Bytes) (offset : Nat) (chunk : SegmentTransfer) : Prop where
  place : chunk.offset = offset
  size : chunk.totalBytes = whole.length
  inside : offset + chunk.data.length ≤ whole.length
  data : whole.take (offset + chunk.data.length) = whole.take offset ++ chunk.data
  last : chunk.last = true ↔ offset + chunk.data.length = whole.length
  some : chunk.data = [] → chunk.last = true

theorem part_follows (hash : Bytes → Bytes) (s : StoreSegments) (id : Id) {whole : Bytes} {offset : Nat}
    (inside : offset ≤ whole.length) (segmentId : String) (maxBytes : Nat) :
    ∃ chunk, part hash s id segmentId offset maxBytes whole = .ok chunk ∧ Follows whole offset chunk := by
  unfold part
  simp only [gt_iff_lt, not_lt.mpr inside, if_false]
  refine ⟨_, rfl, ?_⟩
  set taken := min (min (max maxBytes 1) defaultChunkBytes) (whole.length - offset) with is
  have length : ((whole.drop offset).take taken).length = taken := by
    rw [length_take, length_drop]
    omega
  have one : 1 ≤ defaultChunkBytes := by decide
  constructor
  · rfl
  · rfl
  · simp only [length]
    omega
  · simp only [length, take_add]
  · simp only [length, ge_iff_le, decide_eq_true_eq]
    omega
  · intro empty
    simp only [ge_iff_le, decide_eq_true_eq]
    have none : taken = 0 := by rw [← length]; exact congrArg List.length empty
    omega

end

/-! What a client makes of those answers. -/

section
variable {content : Id → Bytes} {hash : Bytes → Bytes} {tablet : String} {id : Id} {f : Fetch}

def summaryOf (content : Id → Bytes) (hash : Bytes → Bytes) (id : Id) : SegmentSummary :=
  ⟨hex id.bytes, (content id).length, hash (content id)⟩

def Fetch.Has (f : Fetch) (whole : Bytes) : Prop :=
  f.ended = some (.ok whole) ∨
    f.ended = none ∧ f.offset ≤ whole.length ∧ f.bytes = whole.take f.offset

theorem Fetch.has_start (fits : (content id).length ≤ maxSegmentTransferBytes) :
    (Fetch.start (summaryOf content hash id)).Has (content id) := by
  refine .inr ⟨?_, by simp [start], by simp [start]⟩
  simp only [start, summaryOf, gt_iff_lt, not_lt.mpr fits, if_false]

theorem Fetch.Has.take (has : f.Has (content id)) (running : f.ended = none) {chunk : SegmentTransfer}
    (follows : Follows (content id) f.offset chunk) :
    (f.take (summaryOf content hash id) (.ok chunk)).Has (content id) := by
  rcases has with ended | ⟨-, inside, bytes⟩
  · rw [running] at ended
    cases ended
  · have place := follows.place
    have size : chunk.totalBytes = (summaryOf content hash id).totalBytes := follows.size
    have some : ¬(chunk.data = [] ∧ chunk.last = false) := fun ⟨empty, more⟩ => by
      simp [follows.some empty] at more
    have past : ¬f.offset + chunk.data.length > (summaryOf content hash id).totalBytes := not_lt.mpr follows.inside
    have gathered : f.bytes ++ chunk.data = (content id).take (f.offset + chunk.data.length) := by
      rw [bytes, follows.data]
    unfold Fetch.take
    simp only [place, size, some, past, ne_eq, not_true_eq_false, if_false, gathered]
    split_ifs with last
    · have whole := follows.last.mp last
      exact .inl (by simp only [whole, take_length])
    · exact .inr ⟨running, follows.inside, rfl⟩

theorem Fetch.Has.length (has : f.Has (content id)) (bounded : f.Bounded (summaryOf content hash id)) :
    f.ended = some (.ok (content id)) ∨ f.ended = none ∧ f.fetches ≤ (content id).length := by
  rcases has with ended | ⟨running, inside, -⟩
  · exact .inl ended
  · exact .inr ⟨running, (bounded.running running).2.1.trans inside⟩

variable {s : StoreSegments}

theorem ask_summary (sound : s.Sound content hash) (stored : id ∈ s.held) :
    ask content tablet s tablet (summaryOf content hash id).segmentId =
      (.ok (id, content id), (bytesOf content s id).2) := by
  have read := (sound.bytesOf id).2.2 stored
  have parsed := parseSegmentId_hex id
  simp only [ask, checkTablet, summaryOf, parsed, if_true]
  split
  · rename_i failed
    rw [failed] at read
    cases read
  · rename_i bytes server found
    rw [found] at read
    cases read
    simp [found]

def served (content : Id → Bytes) (hash : Bytes → Bytes) (tablet : String) (id : Id) (s : StoreSegments)
    (offset maxBytes : Nat) : Reply × StoreSegments :=
  read content hash tablet s tablet (summaryOf content hash id).segmentId offset maxBytes

theorem served_follows (tablet : String) {offset : Nat} (sound : s.Sound content hash)
    (stored : id ∈ s.held) (inside : offset ≤ (content id).length) (maxBytes : Nat) :
    ∃ chunk, (served content hash tablet id s offset maxBytes).1 = .ok chunk ∧ Follows (content id) offset chunk ∧
      (served content hash tablet id s offset maxBytes).2.Sound content hash ∧
      (served content hash tablet id s offset maxBytes).2.held = s.held := by
  obtain ⟨kept, same, -⟩ := sound.bytesOf id
  obtain ⟨chunk, answered, follows⟩ := part_follows hash (bytesOf content s id).2 id inside
    (summaryOf content hash id).segmentId maxBytes
  simp only [served, read, ask_summary sound stored, answered]
  exact ⟨chunk, rfl, follows, kept.release _, (held_release _).trans same⟩

theorem fetchWhole_served (sound : s.Sound content hash) (stored : id ∈ s.held)
    (fits : (content id).length ≤ maxSegmentTransferBytes) (chunkBytes : Nat) :
    fetchWhole (summaryOf content hash id) (served content hash tablet id) chunkBytes ((content id).length + 1) s =
      some (.ok (content id)) := by
  have each (turns : Nat) : ∀ t, (turn (summaryOf content hash id) (served content hash tablet id) chunkBytes)^[turns]
      (.start (summaryOf content hash id), s) = t →
        t.1.Has (content id) ∧ t.2.Sound content hash ∧ t.2.held = s.held := by
    induction turns with
    | zero =>
      rintro t rfl
      exact ⟨Fetch.has_start fits, sound, rfl⟩
    | succ turns ih =>
      rintro t rfl
      rw [Function.iterate_succ_apply']
      obtain ⟨has, server, held⟩ := ih _ rfl
      generalize (turn (summaryOf content hash id) (served content hash tablet id) chunkBytes)^[turns] _ = t at has server held
      unfold turn
      split_ifs with ended
      · exact ⟨has, server, held⟩
      · have running : t.1.ended = none := by simpa using ended
        rcases has with done | ⟨-, inside, bytes⟩
        · rw [running] at done
          cases done
        · obtain ⟨chunk, answered, follows, kept, same⟩ := served_follows tablet server
            (held ▸ stored) inside chunkBytes
          simp only [answered]
          exact ⟨Fetch.Has.take (.inr ⟨running, inside, bytes⟩) running follows, kept, same.trans held⟩
  obtain ⟨result, ended⟩ := fetchWhole_ends (summaryOf content hash id) (served content hash tablet id) chunkBytes s
  rcases (each ((content id).length + 1) _ rfl).1 with done | ⟨running, -⟩
  · exact done
  · exact absurd (running.symm.trans ended) (by simp)

/-- What a fetch under way has of its segment, and what the step it is at has of it. -/
structure Fetching.Sound (content : Id → Bytes) (hash : Bytes → Bytes) (held : List Id) (f : Fetching) : Prop where
  summary : f.summary = summaryOf content hash f.segment
  bounded : f.fetch.Bounded f.summary
  has : (content f.segment).length ≤ maxSegmentTransferBytes → f.fetch.Has (content f.segment)
  stored : f.fetch.ended = none → f.segment ∈ held
  phase : f.fetch.ended = none →
    f.phase = .asks ∨ f.phase = .holds (f.segment, content f.segment) ∨
      ∃ chunk, f.phase = .replies (.ok chunk) ∧ Follows (content f.segment) f.fetch.offset chunk

structure Node.Sound (content : Id → Bytes) (hash : Bytes → Bytes) (s : Node) : Prop where
  server : s.server.Sound content hash
  fetches : ∀ f ∈ s.fetches, f.Sound content hash s.server.held

theorem Fetching.Sound.step {f : Fetching} (sound : f.Sound content hash s.held) (tablet : String)
    (server : s.Sound content hash) (running : f.fetch.ended = none) :
    (f.step content hash tablet s).1.Sound content hash ∧ (f.step content hash tablet s).1.held = s.held ∧
      (f.step content hash tablet s).2.Sound content hash s.held := by
  have stored := sound.stored running
  have inside : f.fetch.offset ≤ (content f.segment).length := by
    have most := (sound.bounded.running running).2.2
    rw [sound.summary] at most
    exact most
  unfold Fetching.step
  rcases sound.phase running with asks | holds | ⟨chunk, replies, follows⟩
  · obtain ⟨kept, same, -⟩ := server.bytesOf f.segment
    have asked : ask content tablet s tablet f.summary.segmentId =
        (.ok (f.segment, content f.segment), (bytesOf content s f.segment).2) := by
      rw [sound.summary]
      exact ask_summary server stored
    simp only [asks, asked]
    exact ⟨kept, same, sound.summary, sound.bounded, sound.has, sound.stored, fun _ => .inr (.inl rfl)⟩
  · obtain ⟨chunk, answered, follows⟩ := part_follows hash s f.segment inside
      f.summary.segmentId f.chunkBytes
    simp only [holds, answered]
    exact ⟨server, trivial, sound.summary, sound.bounded, sound.has, sound.stored,
      fun _ => .inr (.inr ⟨chunk, rfl, follows⟩)⟩
  · simp only [replies]
    have bounded := sound.bounded.take running (.ok chunk)
    refine ⟨server.release _, held_release _, sound.summary, bounded, fun fits => ?_, fun _ => stored, fun _ => .inl rfl⟩
    rw [sound.summary]
    exact (sound.has fits).take running follows

theorem Node.Sound.step {s t : Node} {e : Event} (sound : s.Sound content hash) (stays : Stays s e)
    (next : s.step content hash tablet e = some t) : t.Sound content hash := by
  cases e with
  | publishes segment =>
    cases next
    refine ⟨⟨sound.server.reading, sound.server.digests⟩, fun f inside => ?_⟩
    have before := sound.fetches f inside
    exact { before with stored := fun running => mem_cons_of_mem _ (before.stored running) }
  | retires segment =>
    cases next
    refine ⟨⟨sound.server.reading, sound.server.digests⟩, fun f inside => ?_⟩
    have before := sound.fetches f inside
    refine { before with stored := fun running => List.mem_filter.mpr ⟨before.stored running, ?_⟩ }
    exact decide_eq_true fun same => stays f inside same running
  | begins segment chunkBytes =>
    obtain ⟨summary, found, same⟩ := Option.bind_eq_some_iff.mp next
    cases same
    obtain ⟨server, listed⟩ := sound.server.list
    refine ⟨server, fun f inside => ?_⟩
    rcases mem_append.mp inside with old | new
    · exact sound.fetches f old
    · obtain rfl := mem_singleton.mp new
      rw [listed] at found
      obtain ⟨id, held, is⟩ := mem_map.mp (mem_of_find?_eq_some found)
      have named : summary.segmentId = hex segment.bytes := by simpa using find?_some found
      obtain rfl : id = segment := by
        have texts : hex id.bytes = hex segment.bytes := by rw [← named, ← is]
        have parsed := parseSegmentId_hex id
        rw [texts, parseSegmentId_hex] at parsed
        exact (Except.ok.inj parsed).symm
      obtain rfl : summaryOf content hash id = summary := is
      exact ⟨rfl, Fetch.bounded_start, Fetch.has_start, fun _ => held, fun _ => .inl rfl⟩
  | goes i =>
    obtain ⟨f, there, moved⟩ := Option.bind_eq_some_iff.mp next
    split_ifs at moved with ended
    cases moved
    have running : f.fetch.ended = none := by simpa using ended
    obtain ⟨server, held, kept⟩ :=
      (sound.fetches f (mem_of_getElem? there)).step tablet sound.server running
    refine ⟨server, fun g inside => ?_⟩
    simp only [held]
    rcases mem_or_eq_of_mem_set inside with old | rfl
    · exact sound.fetches g old
    · exact kept

/-- Whatever a peer replies, a fetch ends within as many calls as there are bytes and one more, and holds no more
than that many bytes and one reply. From a store it gets the bytes of the segment, at any size of a part, alone and
beside the fetches of other segments. -/
theorem fetch_ends_and_is_faithful (content : Id → Bytes) (hash : Bytes → Bytes) (tablet : String) :
    (∀ (σ : Type) (peer : σ → (offset maxBytes : Nat) → Reply × σ) (summary : SegmentSummary) (chunkBytes : Nat) (s : σ),
      (∃ result, fetchWhole summary peer chunkBytes (summary.totalBytes + 1) s = some result) ∧
        ∀ turns, ((turn summary peer chunkBytes)^[turns] (.start summary, s)).1.fetches ≤ summary.totalBytes + 1 ∧
          ((turn summary peer chunkBytes)^[turns] (.start summary, s)).1.bytes.length ≤
            summary.totalBytes + ((turn summary peer chunkBytes)^[turns] (.start summary, s)).1.latest) ∧
    (∀ (s : Node), Reach (Node.step content hash tablet) Stays .start s →
      (∀ id ∈ s.server.held, (content id).length ≤ maxSegmentTransferBytes → ∀ chunkBytes,
        fetchWhole (summaryOf content hash id) (served content hash tablet id) chunkBytes ((content id).length + 1)
          s.server = some (.ok (content id))) ∧ ∀ (i : Nat) (f : Fetching), s.fetches[i]? = some f →
        (content f.segment).length ≤ maxSegmentTransferBytes → f.fetch.ended = some (.ok (content f.segment)) ∨
            f.fetch.ended = none ∧ f.fetch.fetches ≤ (content f.segment).length ∧
              ∃ t, s.step content hash tablet (.goes i) = some t) := by
  refine ⟨fun σ peer summary chunkBytes s => ⟨fetchWhole_ends summary peer chunkBytes s, fun turns => ?_⟩, fun s run => ?_⟩
  · have bounded : ((turn summary peer chunkBytes)^[turns] (.start summary, s)).1.Bounded summary :=
      Fetch.bounded_start.turns turns
    exact ⟨bounded.calls, bounded.held⟩
  · have sound : s.Sound content hash := Reach.invariant _
      ⟨⟨by simp [Node.start], by simp [Node.start, OrderedMap.get?_eq_some]⟩, by simp [Node.start]⟩
      (fun _ _ _ held stays next => held.step stays next) run
    refine ⟨fun id stored fits chunkBytes => fetchWhole_served sound.server stored fits chunkBytes,
      fun i f there fits => ?_⟩
    have mine := sound.fetches f (List.mem_of_getElem? there)
    rcases (mine.has fits).length (mine.summary ▸ mine.bounded) with done | ⟨running, calls⟩
    · exact .inl done
    · refine .inr ⟨running, calls, ?_⟩
      simp [Node.step, there, running]

theorem fetchWhole_refused (content : Id → Bytes) (long : maxSegmentTransferBytes < (content id).length)
    (chunkBytes turns : Nat) :
    fetchWhole (summaryOf content hash id) (served content hash tablet id) chunkBytes turns s ≠ some (.ok (content id)) := by
  have refused : (Fetch.start (summaryOf content hash id)).ended.isSome = true := by
    simp [Fetch.start, summaryOf, long]
  have still : turn (summaryOf content hash id) (served content hash tablet id) chunkBytes
      (.start (summaryOf content hash id), s) = (.start (summaryOf content hash id), s) := by
    rw [turn, if_pos refused]
  rw [fetchWhole, Function.iterate_fixed still]
  simp [Fetch.start, summaryOf, long, Checked.fail]

/-- A segment of more than four gibibytes is stored and not fetched. -/
theorem long_segment_not_fetched : ∃ s, Reach (Node.step (fun _ => List.replicate (maxSegmentTransferBytes + 1) 0)
      (fun bytes => bytes.take 32) "t1") Stays .start s ∧ 1 ∈ s.server.held ∧
    fetchWhole (summaryOf (fun _ => List.replicate (maxSegmentTransferBytes + 1) 0) (fun bytes => bytes.take 32) 1)
      (served (fun _ => List.replicate (maxSegmentTransferBytes + 1) 0) (fun bytes => bytes.take 32) "t1" 1)
      defaultChunkBytes (maxSegmentTransferBytes + 2) s.server ≠
        some (.ok (List.replicate (maxSegmentTransferBytes + 1) 0)) := by
  refine ⟨⟨⟨[1], ∅, none⟩, []⟩, .step (.publishes 1) .start trivial rfl, List.mem_singleton.mpr rfl, ?_⟩
  exact fetchWhole_refused (fun _ => List.replicate (maxSegmentTransferBytes + 1) 0)
    (by rw [List.length_replicate]; omega) _ _

def twoAtOnce : List Event :=
  [.publishes 1, .publishes 2, .begins 1 1, .begins 2 0, .goes 0, .goes 1, .goes 0, .goes 1, .goes 0, .goes 1,
    .goes 1, .goes 1, .goes 0, .goes 0, .goes 1, .goes 0]

theorem fetch_ends_two_at_once : ∃ s, Reach (Node.step (fun id => id.bytes.drop 14) (fun bytes => bytes) "t1") Stays .start s ∧
    s.fetches.map (·.fetch.ended) = [some (.ok [0, 1]), some (.ok [0, 2])] ∧
    ∀ f ∈ s.fetches, f.fetch.ended = some (.ok (f.segment.bytes.drop 14)) ∨ f.fetch.fetches ≤ 2 := by
  obtain ⟨s, run, ended⟩ := @Reach.of_exec_any _ _ (Node.step (fun id => id.bytes.drop 14) (fun bytes => bytes) "t1") Stays _ .start
    twoAtOnce (fun s => s.fetches.map (·.fetch.ended) = [some (.ok [0, 1]), some (.ok [0, 2])]) (by decide +kernel)
  refine ⟨s, run, by simpa using ended, fun f inside => ?_⟩
  obtain ⟨i, there⟩ := List.mem_iff_getElem?.mp inside
  have short : (f.segment.bytes.drop 14).length = 2 := by simp
  rcases ((fetch_ends_and_is_faithful (fun id => id.bytes.drop 14) (fun bytes => bytes) "t1").2 s run).2 i f there
    (by rw [short]; decide) with done | ⟨-, calls, -⟩
  · exact .inl done
  · exact .inr (calls.trans short.le)

end
end TallyOwl.Transfer
