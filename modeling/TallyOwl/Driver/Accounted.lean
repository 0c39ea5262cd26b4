import TallyOwl.Driver.Operations
import Mathlib.Algebra.Order.BigOperators.Group.List

/-! Every item that the driver takes is in one account, in every run. The batches that are held are the
retained ones, those on the wire, and those an operation has in hand. -/
open List

namespace TallyOwl.Driver
open Lib Wire

def itemsOf (held : List Pending) : ℕ := (held.map Pending.items).sum

def bytesOf (held : List Pending) : ℕ := (held.map Pending.bytes).sum

@[simp] theorem itemsOf_cons (batch : Pending) (held : List Pending) :
    itemsOf (batch :: held) = batch.items + itemsOf held := rfl

@[simp] theorem bytesOf_cons (batch : Pending) (held : List Pending) :
    bytesOf (batch :: held) = batch.bytes + bytesOf held := rfl

theorem itemsOf_perm {held other : List Pending} (same : held.Perm other) : itemsOf held = itemsOf other :=
  (same.map _).sum_eq

theorem bytesOf_perm {held other : List Pending} (same : held.Perm other) : bytesOf held = bytesOf other :=
  (same.map _).sum_eq

theorem itemsOf_le {held : List Pending} (small : ∀ batch ∈ held, batch.items ≤ batch.bytes) :
    itemsOf held ≤ bytesOf held :=
  sum_le_sum small

theorem fetchAdd_of_lt {x y : ℕ} (fits : x + y < 2 ^ 64) : fetchAdd x y = x + y := if_pos fits

theorem fetchSub_cancel (x y : ℕ) : fetchSub (x + y) x = y := by
  rw [fetchSub, if_pos (Nat.le_add_right x y), Nat.add_sub_cancel_left]

structure Pending.Same (batch first : Pending) : Prop where
  batchId : batch.batchId = first.batchId
  encoded : batch.encoded = first.encoded
  items : batch.items = first.items
  bytes : batch.bytes = first.bytes

def Known (batches : List Pending) (batch : Pending) : Prop :=
  ∃ first, batches[batch.order]? = some first ∧ batch.Same first

def Carries (batches : List Pending) (frame : Frame) : Prop :=
  ∃ first, batches[frame.order]? = some first ∧ frame.batchId = first.batchId ∧ frame.payload = first.encoded

theorem getElem?_push {batches : List Pending} {batch first : Pending} {order : ℕ}
    (found : batches[order]? = some first) : (batches ++ [batch])[order]? = some first := by
  obtain ⟨short, _⟩ := List.getElem?_eq_some_iff.mp found
  rwa [getElem?_append_left short]

theorem Known.push {batches : List Pending} {batch other : Pending} (known : Known batches batch) :
    Known (batches ++ [other]) batch := by
  obtain ⟨first, found, same⟩ := known
  exact ⟨first, getElem?_push found, same⟩

theorem Carries.push {batches : List Pending} {frame : Frame} {other : Pending} (carries : Carries batches frame) :
    Carries (batches ++ [other]) frame := by
  obtain ⟨first, found, same⟩ := carries
  exact ⟨first, getElem?_push found, same⟩

/-- The accounts agree with the batches that are held and with what no batch has yet. -/
structure Books (limit : ℕ) (counters : Counters) (batches : List Pending) (settled : List ℕ)
    (frames : List Frame) (held : List Pending) (items bytes : ℕ) : Prop where
  bound : bytes + bytesOf held ≤ limit
  sealedBytes : counters.sealedBytes = bytesOf held
  unacknowledged : counters.unacknowledgedItems = itemsOf held
  small : ∀ batch ∈ held, batch.items ≤ batch.bytes
  totals : counters.captured =
    items + itemsOf held + counters.accepted + counters.rejected + counters.lost
  count : counters.sealed = batches.length
  once : (held.map Pending.order ++ settled).Perm (List.range batches.length)
  known : ∀ batch ∈ held, Known batches batch
  carried : ∀ frame ∈ frames, Carries batches frame

namespace Books

variable {limit items bytes : ℕ} {counters : Counters} {batches held other : List Pending}
  {settled : List ℕ} {frames : List Frame} {batch : Pending}

theorem perm (books : Books limit counters batches settled frames held items bytes)
    (same : held.Perm other) : Books limit counters batches settled frames other items bytes where
  bound := bytesOf_perm same ▸ books.bound
  sealedBytes := bytesOf_perm same ▸ books.sealedBytes
  unacknowledged := itemsOf_perm same ▸ books.unacknowledged
  small := fun b inside => books.small b (same.mem_iff.mpr inside)
  totals := itemsOf_perm same ▸ books.totals
  count := books.count
  once := ((same.map _).append_right _).symm.trans books.once
  known := fun b inside => books.known b (same.mem_iff.mpr inside)
  carried := books.carried

theorem retry (books : Books limit counters batches settled frames (batch :: held) items bytes) (attempts : ℕ) :
    Books limit counters batches settled frames ({ batch with attempts } :: held) items bytes where
  bound := books.bound
  sealedBytes := books.sealedBytes
  unacknowledged := books.unacknowledged
  small := by
    obtain ⟨first, rest⟩ := forall_mem_cons.mp books.small
    exact forall_mem_cons.mpr ⟨first, rest⟩
  totals := books.totals
  count := books.count
  once := books.once
  known := by
    obtain ⟨⟨first, found, same⟩, rest⟩ := forall_mem_cons.mp books.known
    exact forall_mem_cons.mpr ⟨⟨first, found, same.batchId, same.encoded, same.items, same.bytes⟩, rest⟩
  carried := books.carried

theorem settles (books : Books limit counters batches settled frames (batch :: held) items bytes)
    (accepted rejected lost : ℕ) (all : accepted + rejected + lost = batch.items) :
    Books limit { counters.settle batch with
      accepted := counters.accepted + accepted
      rejected := counters.rejected + rejected
      lost := counters.lost + lost } batches (settled ++ [batch.order]) frames held items bytes := by
  have bound := books.bound
  have totals := books.totals
  rw [bytesOf_cons] at bound
  rw [itemsOf_cons] at totals
  constructor
  case bound => omega
  case sealedBytes =>
    show fetchSub counters.sealedBytes batch.bytes = bytesOf held
    rw [books.sealedBytes, bytesOf_cons, fetchSub_cancel]
  case unacknowledged =>
    show fetchSub counters.unacknowledgedItems batch.items = itemsOf held
    rw [books.unacknowledged, itemsOf_cons, fetchSub_cancel]
  case small => exact (forall_mem_cons.mp books.small).2
  case totals =>
    show counters.captured = items + itemsOf held + (counters.accepted + accepted) +
      (counters.rejected + rejected) + (counters.lost + lost)
    omega
  case count => exact books.count
  case once =>
    refine List.Perm.trans ?_ books.once
    rw [map_cons, ← append_assoc]
    exact perm_append_singleton _ _
  case known => exact (forall_mem_cons.mp books.known).2
  case carried => exact books.carried

theorem seals (books : Books limit counters batches settled frames held (items + batch.items)
      (bytes + batch.bytes)) (word : limit < 2 ^ 64) (small : batch.items ≤ batch.bytes)
    (next : batch.order = counters.sealed) : Books limit { counters with
      sealedBytes := fetchAdd counters.sealedBytes batch.bytes
      unacknowledgedItems := fetchAdd counters.unacknowledgedItems batch.items
      sealed := counters.sealed + 1 } (batches ++ [batch]) settled frames (batch :: held) items bytes := by
  have bound := books.bound
  have totals := books.totals
  have fewer := itemsOf_le books.small
  have last : batch.order = batches.length := next.trans books.count
  constructor
  case bound =>
    rw [bytesOf_cons]
    omega
  case sealedBytes =>
    show fetchAdd counters.sealedBytes batch.bytes = batch.bytes + bytesOf held
    rw [books.sealedBytes, Nat.add_comm batch.bytes, fetchAdd_of_lt (by omega)]
  case unacknowledged =>
    show fetchAdd counters.unacknowledgedItems batch.items = batch.items + itemsOf held
    rw [books.unacknowledged, Nat.add_comm batch.items, fetchAdd_of_lt (by omega)]
  case small => exact forall_mem_cons.mpr ⟨small, books.small⟩
  case totals =>
    show counters.captured =
      items + (batch.items + itemsOf held) + counters.accepted + counters.rejected + counters.lost
    omega
  case count =>
    show counters.sealed + 1 = (batches ++ [batch]).length
    rw [books.count, length_append, length_singleton]
  case once =>
    rw [length_append, length_singleton, range_succ, map_cons, cons_append, last]
    exact (List.Perm.cons _ books.once).trans (perm_append_singleton _ _).symm
  case known =>
    refine forall_mem_cons.mpr ⟨⟨batch, ?_, rfl, rfl, rfl, rfl⟩, fun b inside => (books.known b inside).push⟩
    rw [last, getElem?_append_right le_rfl, Nat.sub_self]
    rfl
  case carried => exact fun frame inside => (books.carried frame inside).push

theorem admits (books : Books limit counters batches settled frames held items bytes) {size : ℕ}
    (room : bytes + size + bytesOf held ≤ limit) : Books limit { counters with
      captured := counters.captured + 1 } batches settled frames held (items + 1) (bytes + size) where
  bound := room
  sealedBytes := books.sealedBytes
  unacknowledged := books.unacknowledged
  small := books.small
  totals := by
    have totals := books.totals
    show counters.captured + 1 =
      items + 1 + itemsOf held + counters.accepted + counters.rejected + counters.lost
    omega
  count := books.count
  once := books.once
  known := books.known
  carried := books.carried

theorem refuses (books : Books limit counters batches settled frames held items bytes) :
    Books limit { counters with refused := counters.refused + 1 } batches settled frames held items bytes :=
  ⟨books.bound, books.sealedBytes, books.unacknowledged, books.small, books.totals, books.count, books.once,
    books.known, books.carried⟩

theorem sends (books : Books limit counters batches settled frames (batch :: held) items bytes) :
    Books limit counters batches settled (frames ++ [⟨batch.order, batch.batchId, batch.encoded⟩])
      (batch :: held) items bytes where
  bound := books.bound
  sealedBytes := books.sealedBytes
  unacknowledged := books.unacknowledged
  small := books.small
  totals := books.totals
  count := books.count
  once := books.once
  known := books.known
  carried := by
    obtain ⟨first, found, same⟩ := books.known batch mem_cons_self
    refine forall_mem_append.mpr ⟨books.carried, forall_mem_singleton.mpr ?_⟩
    exact ⟨first, found, same.batchId, same.encoded⟩

end Books

/-! The connection: a number is used once, and what cannot be made carries nothing. -/

structure Outbox.Wired (outbox : Outbox) : Prop where
  used : ∀ entry ∈ outbox.pending, entry.1 < outbox.pipeline.nextId
  broken : outbox.broken ≠ none → outbox.pending = []

theorem removed_perm {id : ℕ} {pending rest : List (ℕ × Pending)} {batch : Pending}
    (found : removed id pending = some (batch, rest)) : pending.Perm ((id, batch) :: rest) := by
  induction pending generalizing rest with
  | nil => cases found
  | cons entry later ih =>
    unfold removed at found
    split at found
    · rename_i same
      obtain ⟨rfl, rfl⟩ : entry.2 = batch ∧ later = rest := by simpa using found
      rw [← same]
    · obtain ⟨⟨b, left⟩, there, pair⟩ := Option.map_eq_some_iff.mp found
      obtain ⟨rfl, rfl⟩ : b = batch ∧ entry :: left = rest := by simpa using pair
      exact ((ih there).cons entry).trans (List.Perm.swap _ _ _)

theorem Outbox.Wired.new (broken : Option TallyOwlError) : (Outbox.new broken).Wired :=
  ⟨fun _ inside => absurd inside not_mem_nil, fun _ => rfl⟩

theorem Outbox.Wired.sent_pending {outbox : Outbox} (wired : outbox.Wired) (batch : Pending) :
    (outbox.sent batch).pending = outbox.pending ++ [(outbox.pipeline.nextId, batch)] := by
  refine congrArg (· ++ _) (filter_eq_self.mpr fun entry inside => ?_)
  have older := wired.used entry inside
  simp only [ne_eq, decide_not, Bool.not_eq_true', decide_eq_false_iff_not]
  omega

theorem Outbox.Wired.sent {outbox : Outbox} (wired : outbox.Wired) (whole : outbox.broken = none)
    (batch : Pending) : (outbox.sent batch).Wired where
  used := by
    rw [wired.sent_pending]
    refine forall_mem_append.mpr ⟨fun entry inside => ?_, forall_mem_singleton.mpr ?_⟩
    · exact Nat.lt_succ_of_lt (wired.used entry inside)
    · exact Nat.lt_succ_self _
  broken := fun broken => absurd whole broken

theorem Outbox.Wired.answered {outbox : Outbox} (wired : outbox.Wired) {id inFlight : ℕ} {batch : Pending}
    {rest : List (ℕ × Pending)} (found : removed id outbox.pending = some (batch, rest)) :
    Outbox.Wired { outbox with pipeline := { outbox.pipeline with inFlight }, pending := rest } where
  used := fun entry inside =>
    wired.used entry ((removed_perm found).mem_iff.mpr (mem_cons_of_mem _ inside))
  broken := fun broken => by
    rw [wired.broken broken] at found
    cases found

/-! What an operation does between two moments that another thread sees. -/

def World.front (w : World) : List Prepared × Option Admission × Buffer := (w.prepared, w.admission, w.buffer)

def World.held (w : World) (hand : List Pending) : List Pending :=
  hand ++ (w.delivery.retained ++ w.delivery.onTheWire.map Prod.snd)

/-- An operation came from one state to another with some batches in hand, and the accounts agree. -/
structure Through (s : Settings) (first w : World) (hand : List Pending) : Prop where
  front : w.front = first.front
  lower : w.counters.sealedBytes ≤ first.counters.sealedBytes
  books : Books s.maxUnacknowledgedBytes w.counters w.batches w.settled w.frames (w.held hand)
    w.buffer.items.length w.buffer.bytes
  wired : ∀ outbox ∈ w.delivery.outbox, outbox.Wired

def World.core (w : World) : (List Prepared × Option Admission × Buffer) × Counters × List Pending ×
    List ℕ × List Frame × List Pending × Option Outbox :=
  (w.front, w.counters, w.batches, w.settled, w.frames, w.delivery.retained, w.delivery.outbox)

namespace Through

variable {s : Settings} {first w : World} {hand other : List Pending} {batch : Pending}

theorem perm (through : Through s first w hand) (same : hand.Perm other) : Through s first w other :=
  ⟨through.front, through.lower, through.books.perm (same.append_right _), through.wired⟩

theorem of_core {w' : World} (through : Through s first w hand) (same : w'.core = w.core) :
    Through s first w' hand := by
  simp only [World.core, World.front, Prod.mk.injEq] at same
  obtain ⟨⟨prepared, admission, buffer⟩, counters, batches, settled, frames, retained, outbox⟩ := same
  obtain ⟨front, lower, books, wired⟩ := through
  constructor
  case front => rwa [World.front, prepared, admission, buffer]
  case lower => rwa [counters]
  case books =>
    rw [World.held, Delivery.onTheWire] at books ⊢
    rwa [counters, batches, settled, frames, retained, outbox, buffer]
  case wired => rwa [outbox]

theorem retain (through : Through s first w (batch :: hand)) : Through s first (w.retain batch) hand where
  front := through.front
  lower := through.lower
  books := by
    refine through.books.perm ?_
    show (batch :: (hand ++ (w.delivery.retained ++ _))).Perm
      (hand ++ (retained w.delivery.retained batch ++ w.delivery.onTheWire.map Prod.snd))
    refine perm_middle.symm.trans (List.Perm.append_left _ ?_)
    rw [← cons_append]
    exact (retained_perm _ _).symm.append_right _
  wired := through.wired

theorem retry (through : Through s first w (batch :: hand)) (attempts : ℕ) :
    Through s first w ({ batch with attempts } :: hand) :=
  ⟨through.front, through.lower, through.books.retry attempts, through.wired⟩

theorem lower_of_books (through : Through s first w (batch :: hand)) {counters : Counters}
    {settled : List ℕ} {items bytes : ℕ} (books : Books s.maxUnacknowledgedBytes counters w.batches settled
      w.frames (w.held hand) items bytes) : counters.sealedBytes ≤ first.counters.sealedBytes := by
  have before : w.counters.sealedBytes = batch.bytes + bytesOf (w.held hand) := through.books.sealedBytes
  have lower := through.lower
  rw [books.sealedBytes]
  omega

theorem acknowledged (through : Through s first w (batch :: hand)) {receipt : Receipt}
    (all : receipt.accepted + receipt.rejected.length = batch.items) :
    Through s first (w.acknowledged batch receipt) hand := by
  have books := through.books.settles receipt.accepted receipt.rejected.length 0 all
  exact ⟨through.front, through.lower_of_books books, books, through.wired⟩

theorem lose (through : Through s first w (batch :: hand)) (reason : TallyOwlError) :
    Through s first (w.lose batch reason) hand := by
  have books := through.books.settles 0 0 batch.items (Nat.zero_add _)
  exact ⟨through.front, through.lower_of_books books, books, through.wired⟩

theorem retainOrLose (through : Through s first w (batch :: hand)) (error : TallyOwlError) :
    Through s first (w.retainOrLose s batch error) hand := by
  unfold World.retainOrLose
  split
  · exact through.lose _
  · exact through.retain

theorem noteFailure (through : Through s first w hand) (error : TallyOwlError) (retryNow : Bool)
    (now random : ℕ) : Through s first (w.noteFailure s error retryNow now random) hand := by
  refine through.of_core ?_
  unfold World.noteFailure
  cases retryNow with
  | true => rfl
  | false => rfl

theorem setOutbox (through : Through s first w hand) {outbox : Outbox} (wired : outbox.Wired)
    (same : (hand ++ w.delivery.onTheWire.map Prod.snd).Perm (other ++ outbox.pending.map Prod.snd)) :
    Through s first (w.setOutbox outbox) other where
  front := through.front
  lower := through.lower
  books := by
    refine through.books.perm ?_
    show (hand ++ (w.delivery.retained ++ w.delivery.onTheWire.map Prod.snd)).Perm
      (other ++ (w.delivery.retained ++ outbox.pending.map Prod.snd))
    refine (perm_append_comm_assoc _ _ _).trans (List.Perm.trans ?_ (perm_append_comm_assoc _ _ _))
    exact same.append_left _
  wired := by
    intro found equal
    obtain rfl : outbox = found := by simpa [World.setOutbox] using equal
    exact wired

end Through

theorem outbox_pending (w : World) (turn : Turn) : (w.outbox turn).pending = w.delivery.onTheWire := by
  unfold World.outbox Delivery.onTheWire
  cases w.delivery.outbox with
  | none => rfl
  | some outbox => rfl

theorem Through.outbox_wired {s : Settings} {first w : World} {hand : List Pending}
    (through : Through s first w hand) (turn : Turn) : (w.outbox turn).Wired := by
  unfold World.outbox
  cases there : w.delivery.outbox with
  | none => exact .new _
  | some outbox => exact through.wired outbox there

/-! One step of an operation. -/

def Stage.held : Stage → List Pending
  | .measures _ batch | .hands _ batch => [batch]
  | .fails _ _ held _ _ => held
  | _ => []

def Stage.taken : Stage → ℕ × ℕ
  | .drains _ taken bytes => (taken.length, bytes)
  | _ => (0, 0)

/-- An operation rests with the batches that its stage has. -/
structure Rests (s : Settings) (first w : World) : Prop where
  through : Through s first w w.stage.held
  unlocked : w.stage.locks = false

namespace Through

variable {s : Settings} {c : Codec} {first w : World} {batch : Pending}

theorem ends (through : Through s first w []) (work : Work) (result : Except TallyOwlError Unit) :
    Rests s first (w.ends work result) :=
  ⟨through.of_core rfl, rfl⟩

theorem runs (through : Through s first w []) (work : Work) (spot : Spot) : Rests s first (w.runs work spot) :=
  ⟨through.of_core rfl, rfl⟩

theorem collects (through : Through s first w []) (receipt : Receipt) : Through s first (w.collects receipt) [] :=
  through.of_core rfl

theorem hands (through : Through s first w [batch]) (work : Work) :
    Rests s first { w with stage := .hands work batch } :=
  ⟨through.of_core rfl, rfl⟩

theorem answered (through : Through s first w []) (work : Work) (spot : Spot) (order : ℕ)
    (outcome : Except TallyOwlError Receipt) : Rests s first (w.answered work spot order outcome) := by
  unfold World.answered
  split
  · split
    · split
      · exact through.runs _ _
      · exact through.ends _ _
    · split
      · exact (through.collects _).runs _ _
      · exact through.runs _ _
  · exact (through.collects _).runs _ _
  · exact through.runs _ _
  · exact through.runs _ _
  · exact through.ends _ _

theorem fails (through : Through s first w []) {outbox : Outbox}
    (same : outbox.pending = w.delivery.onTheWire) (work : Work) (again : Spot)
    (error : TallyOwlError) (established : Bool) : Rests s first (w.fails work again outbox error established) := by
  have cut : Through s first (w.setOutbox ⟨outbox.pipeline.reset, outbox.broken, [], false⟩)
      (outbox.pending.map Prod.snd) := by
    refine through.setOutbox ⟨fun _ inside => absurd inside not_mem_nil, fun _ => rfl⟩ ?_
    rw [same, map_nil, append_nil, nil_append]
  exact ⟨cut.of_core rfl, rfl⟩

theorem drops {hand : List Pending} (through : Through s first w hand) (nothing : w.delivery.onTheWire = []) :
    Through s first { w with delivery := { w.delivery with outbox := none } } hand where
  front := through.front
  lower := through.lower
  books := by
    refine through.books.perm ?_
    rw [World.held, World.held, nothing]
    rfl
  wired := fun outbox inside => by cases inside

theorem frames (through : Through s first w [batch]) :
    Through s first { w with frames := w.frames ++ [⟨batch.order, batch.batchId, batch.encoded⟩] } [batch] :=
  ⟨through.front, through.lower, through.books.sends, through.wired⟩

theorem sends (through : Through s first w [batch]) (work : Work) (turn : Turn) :
    Rests s first (w.sends s work batch turn) := by
  have wired := through.outbox_wired turn
  have same := outbox_pending w turn
  unfold World.sends
  cases broken : (w.outbox turn).broken with
  | some error =>
    have nothing : w.delivery.onTheWire = [] := by
      rw [← same]
      exact wired.broken (broken ▸ Option.some_ne_none error)
    simp only [broken]
    exact ((through.drops nothing).retain.noteFailure _ _ _ _).ends _ _
  | none =>
    have put := through.frames
    simp only [broken]
    cases turn.sent with
    | ok _ =>
      refine Through.runs (put.setOutbox (wired.sent broken batch) ?_) _ _
      rw [wired.sent_pending, same, map_append, nil_append]
      exact (perm_append_singleton _ _).symm
    | error error => exact put.retain.fails same _ _ _ _

theorem collect (through : Through s first w []) (work : Work) (spot : Spot) {turn : Turn}
    (fair : honest c w (.turns turn) = true) : Rests s first (w.collect s c work spot turn) := by
  have wired := through.outbox_wired turn
  have same := outbox_pending w turn
  unfold World.collect
  by_cases quiet : (w.outbox turn).pipeline.inFlight = 0
  · simp only [quiet, if_true]
    refine Through.ends (through.setOutbox wired ?_) _ _
    rw [same]
  simp only [quiet, if_false]
  cases heard : turn.heard with
  | error error => exact through.fails same _ _ _ _
  | ok answer =>
    obtain ⟨id, response⟩ := answer
    cases found : removed id (w.outbox turn).pending with
    | none =>
      simp only [found]
      exact through.fails same _ _ _ _
    | some entry =>
      obtain ⟨batch, pending⟩ := entry
      have parts : (w.delivery.onTheWire.map Prod.snd).Perm (batch :: pending.map Prod.snd) := by
        rw [← same]
        exact (removed_perm found).map Prod.snd
      have out : Through s first (w.setOutbox ⟨⟨(w.outbox turn).pipeline.nextId,
          (w.outbox turn).pipeline.inFlight - 1⟩, (w.outbox turn).broken, pending,
          (w.outbox turn).established⟩) [batch] :=
        through.setOutbox (wired.answered found) parts
      simp only [honest, heard, ← same, found] at fair
      simp only [found]
      cases read : readReceipt c batch.batchId response with
      | ok receipt =>
        simp only [read, decide_eq_true_eq] at fair
        exact (out.acknowledged fair).answered _ _ _ _
      | error failure =>
        cases failure with
        | refused error =>
          simp only
          split
          · exact (out.retain.noteFailure _ _ _ _).answered _ _ _ _
          · exact (out.lose _).answered _ _ _ _
        | ambiguous error =>
          exact (((out.retry _).retainOrLose _).noteFailure _ _ _ _).answered _ _ _ _

theorem pass (through : Through s first w [batch]) (work : Work) (turn : Turn) :
    Rests s first (w.hands s work batch turn) := by
  unfold World.hands
  split
  · have whole : Through s first (w.acknowledged batch ⟨batch.batchId, batch.items, 0, []⟩) [] :=
      through.acknowledged rfl
    exact whole.runs _ _
  · exact through.sends _ _

theorem measures (through : Through s first w [batch]) (work : Work) : Rests s first (w.measures s work batch) := by
  unfold World.measures
  split
  · exact (through.lose _).ends _ _
  · exact through.hands _

theorem failsOn {held : List Pending} (through : Through s first w held) {work : Work} {again : Spot}
    {error : TallyOwlError} {established : Bool} {turn : Turn} {w' : World}
    (next : w.failsOn s work again held error established turn = some w') : Rests s first w' := by
  unfold World.failsOn at next
  split at next
  · rename_i empty
    obtain rfl : held = [] := List.isEmpty_iff.mp empty
    cases next
    split
    · exact (through.noteFailure _ _ _ _).runs _ _
    · exact (through.noteFailure _ _ _ _).ends _ _
  · obtain ⟨batch, there, rfl⟩ := Option.map_eq_some_iff.mp next
    obtain ⟨inside, rfl⟩ := List.getElem?_eq_some_iff.mp there
    have parted := through.perm (getElem_cons_eraseIdx_perm inside).symm
    exact ⟨((parted.retry _).retainOrLose _).of_core rfl, rfl⟩

theorem top (through : Through s first w []) (work : Work) {turn : Turn}
    (fair : honest c w (.turns turn) = true) : Rests s first (w.top s c work turn) := by
  unfold World.top
  split
  · split
    · exact through.ends _ _
    · exact through.runs _ _
  · split
    · exact through.ends _ _
    · exact through.runs _ _
  · split
    · split
      · exact through.ends _ _
      · split
        · exact through.ends _ _
        · exact through.runs _ _
    · exact through.collect _ _ fair

theorem outbox (through : Through s first w []) (turn : Turn) : Through s first (w.setOutbox (w.outbox turn)) [] :=
  through.setOutbox (through.outbox_wired turn) (by rw [outbox_pending])

end Through

/-! The invariant of the driver. -/

theorem Stage.taken_of_unlocked {stage : Stage} (unlocked : stage.locks = false) : stage.taken = (0, 0) := by
  cases stage with
  | drains work taken bytes => cases unlocked
  | _ => rfl

theorem Stage.eq_of_isIdle {stage : Stage} (idle : stage.isIdle = true) : stage = .idle := by
  cases stage with
  | idle => rfl
  | _ => cases idle

/-- The accounts agree at every moment. A capture inside the lock has read at least the bytes that are
sealed, and the buffer is not being drained. -/
structure Kept (s : Settings) (c : Codec) (w : World) : Prop where
  books : Books s.maxUnacknowledgedBytes w.counters w.batches w.settled w.frames (w.held w.stage.held)
    (w.buffer.items.length + w.stage.taken.1) (w.buffer.bytes + w.stage.taken.2)
  wired : ∀ outbox ∈ w.delivery.outbox, outbox.Wired
  sizes : w.buffer.sizes = w.buffer.items.map c.size
  bytes : w.buffer.bytes = w.buffer.sizes.sum
  admission : ∀ a ∈ w.admission, w.counters.sealedBytes ≤ a.sealedBytes ∧ w.stage.locks = false
  ready : ∀ p ∈ w.prepared, p.size = c.size p.item
  measured : ∀ a ∈ w.admission, a.prepared.size = c.size a.prepared.item
  taken : ∀ work taken bytes, w.stage = .drains work taken bytes → bytes = (taken.map c.size).sum

theorem drained_spec {s : Settings} {c : Codec} {buffer : Buffer} (sizes : buffer.sizes = buffer.items.map c.size)
    (bytes : buffer.bytes = buffer.sizes.sum) (now : ℕ) : ∃ k openedAt sealNow,
      drained s buffer now = (buffer.items.take k, ((buffer.items.take k).map c.size).sum,
        ⟨buffer.items.drop k, (buffer.items.drop k).map c.size, ((buffer.items.drop k).map c.size).sum,
          openedAt, sealNow⟩) := by
  obtain ⟨k, -, filled⟩ := fill_eq (budget s) (max s.maxItems 1) 0 0 buffer.sizes
  rw [Nat.zero_add, Nat.zero_add, sizes, ← map_take] at filled
  refine ⟨k, if (buffer.items.drop k).isEmpty then none else some now,
    if (buffer.items.drop k).isEmpty then false else buffer.sealNow, ?_⟩
  have parts : ((buffer.items.take k).map c.size).sum + ((buffer.items.drop k).map c.size).sum =
      buffer.bytes := by
    rw [bytes, sizes, ← sum_append, ← map_append, take_append_drop]
  have rest : buffer.bytes - ((buffer.items.take k).map c.size).sum =
      ((buffer.items.drop k).map c.size).sum := by omega
  unfold drained
  simp only [sizes, filled, ← map_drop, rest]

namespace Kept

variable {s : Settings} {c : Codec} {first w : World}

theorem new : Kept s c .new where
  books := by
    constructor
    case bound => exact Nat.zero_le _
    case sealedBytes => rfl
    case unacknowledged => rfl
    case small => exact fun _ inside => absurd inside not_mem_nil
    case totals => rfl
    case count => rfl
    case once => exact .refl _
    case known => exact fun _ inside => absurd inside not_mem_nil
    case carried => exact fun _ inside => absurd inside not_mem_nil
  wired := fun _ inside => by cases inside
  sizes := rfl
  bytes := rfl
  admission := fun _ inside => by cases inside
  ready := fun _ inside => absurd inside not_mem_nil
  measured := fun _ inside => by cases inside
  taken := fun _ _ _ stage => by cases stage

theorem through (kept : Kept s c w) (unlocked : w.stage.locks = false) : Through s w w w.stage.held where
  front := rfl
  lower := le_rfl
  books := by
    have books := kept.books
    rwa [Stage.taken_of_unlocked unlocked] at books
  wired := kept.wired

theorem rests (kept : Kept s c first) (rests : Rests s first w) : Kept s c w := by
  obtain ⟨⟨front, lower, books, wired⟩, unlocked⟩ := rests
  simp only [World.front, Prod.mk.injEq] at front
  obtain ⟨prepared, admission, buffer⟩ := front
  constructor
  case books => rwa [Stage.taken_of_unlocked unlocked]
  case wired => exact wired
  case sizes => rw [buffer, kept.sizes]
  case bytes => rw [buffer, kept.bytes]
  case admission =>
    intro a inside
    exact ⟨lower.trans (kept.admission a (admission ▸ inside)).1, unlocked⟩
  case ready => exact fun p inside => kept.ready p (prepared ▸ inside)
  case measured => exact fun a inside => kept.measured a (admission ▸ inside)
  case taken =>
    intro work taken bytes stage
    rw [stage] at unlocked
    cases unlocked

theorem takes (kept : Kept s c first) (through : Through s first w []) {work : Work} {now : ℕ} {w' : World}
    (next : w.takes s work now = some w') : Kept s c w' := by
  have front := through.front
  simp only [World.front, Prod.mk.injEq] at front
  obtain ⟨prepared, admission, buffer⟩ := front
  obtain ⟨k, openedAt, sealNow, cut⟩ := drained_spec (buffer ▸ kept.sizes) (buffer ▸ kept.bytes) now
  unfold World.takes at next
  rw [cut] at next
  split at next
  · rename_i batch rest held
    cases next
    refine kept.rests ⟨⟨through.front, through.lower, ?_, through.wired⟩, rfl⟩
    have books := through.books
    rw [World.held, held] at books
    exact books
  · cases next
    exact kept.rests (through.runs _ _)
  · split at next
    · cases next
    rename_i free
    split at next
    · cases next
      exact kept.rests (through.ends _ _)
    cases next
    have nobody : w.admission = none := by simpa using free
    have items : (w.buffer.items.drop k).length + (w.buffer.items.take k).length = w.buffer.items.length := by
      rw [Nat.add_comm, ← length_append, take_append_drop]
    have bytes : ((w.buffer.items.drop k).map c.size).sum + ((w.buffer.items.take k).map c.size).sum =
        w.buffer.bytes := by
      rw [Nat.add_comm, ← sum_append, ← map_append, take_append_drop, buffer, kept.bytes,
        kept.sizes]
    constructor
    case books =>
      show Books s.maxUnacknowledgedBytes w.counters w.batches w.settled w.frames (w.held [])
        ((w.buffer.items.drop k).length + (w.buffer.items.take k).length)
        (((w.buffer.items.drop k).map c.size).sum + ((w.buffer.items.take k).map c.size).sum)
      rw [items, bytes]
      exact through.books
    case wired => exact through.wired
    case sizes => rfl
    case bytes => rfl
    case admission => exact fun a inside => absurd (nobody ▸ inside) (Option.not_mem_none a)
    case ready => exact fun p inside => kept.ready p (prepared ▸ inside)
    case measured => exact fun a inside => kept.measured a (admission ▸ inside)
    case taken =>
      intro work taken bytes stage
      cases stage
      rfl

theorem seals (kept : Kept s c w) {work : Work} {taken : List TelemetryItem} {bytes : ℕ}
    (stage : w.stage = .drains work taken bytes) (turn : Turn) : Kept s c (w.seals c work taken bytes turn) := by
  have total := kept.taken work taken bytes stage
  have small : taken.length ≤ bytes := by
    have each : ∀ size ∈ taken.map c.size, 1 ≤ size := forall_mem_map.mpr fun item _ => c.size_pos item
    rw [total, ← length_map c.size]
    exact length_le_sum_of_one_le _ each
  let batch := sealed c taken bytes w.counters.sealed turn.batchId turn.sealedAt
  have books : Books s.maxUnacknowledgedBytes w.counters w.batches w.settled w.frames (w.held [])
      (w.buffer.items.length + batch.items) (w.buffer.bytes + batch.bytes) := by
    have books := kept.books
    rwa [stage] at books
  constructor
  case books => exact books.seals s.word small rfl
  case wired => exact kept.wired
  case sizes => exact kept.sizes
  case bytes => exact kept.bytes
  case admission =>
    intro a inside
    have locks := (kept.admission a inside).2
    rw [stage] at locks
    cases locks
  case ready => exact kept.ready
  case measured => exact kept.measured
  case taken =>
    intro _ _ _ stage
    cases stage

theorem turns (kept : Kept s c w) {turn : Turn} (fair : honest c w (.turns turn) = true) {w' : World}
    (next : w.turns s c turn = some w') : Kept s c w' := by
  have through := kept.through
  unfold World.turns at next
  split at next <;> rename_i stage <;> rw [stage] at through
  case h_1 => cases next
  case h_2 work =>
    cases next
    exact kept.rests ((through rfl).top _ fair)
  case h_3 work =>
    dsimp only at next
    split at next
    · cases next
      exact kept.rests (((through rfl).outbox turn).runs _ _)
    · cases next
      exact kept.rests ((through rfl).collect _ _ fair)
  case h_4 receipts =>
    dsimp only at next
    split at next
    · exact kept.takes ((through rfl).outbox turn) next
    · cases next
      exact kept.rests (((through rfl).outbox turn).runs _ _)
  case h_5 work _ => exact kept.takes (through rfl) next
  case h_6 work order =>
    cases next
    exact kept.rests ((through rfl).collect _ _ fair)
  case h_7 work taken bytes =>
    cases next
    exact kept.seals stage turn
  case h_8 work batch =>
    cases next
    exact kept.rests ((through rfl).measures _)
  case h_9 work batch =>
    cases next
    exact kept.rests ((through rfl).pass _ _)
  case h_10 work again held error established => exact kept.rests ((through rfl).failsOn next)

theorem rested (kept : Kept s c w) (idle : w.stage.isIdle = true) : Through s w w [] := by
  have through := kept.through
  rw [Stage.eq_of_isIdle idle] at through
  exact through rfl

theorem calls (kept : Kept s c w) (idle : w.stage.isIdle = true) (call : Call) (now : ℕ) :
    Kept s c (w.calls s call now) := by
  have through := kept.rested idle
  have quiet {receipts : List Receipt} : Through s w
      { w with delivery := { w.delivery with collected := receipts } } [] := through.of_core rfl
  refine kept.rests ?_
  unfold World.calls
  split
  · split
    · exact through.ends _ _
    · exact through.runs _ _
  · split
    · exact through.ends _ _
    · exact quiet.runs _ _
  · exact quiet.runs _ _

theorem captures (kept : Kept s c w) (capture : Capture) (waits : Bool) : Kept s c (w.captures s c capture waits) := by
  unfold World.captures
  split
  · exact ⟨kept.books.refuses, kept.wired, kept.sizes, kept.bytes, kept.admission, kept.ready, kept.measured,
      kept.taken⟩
  · rename_i item size made
    have measured : size = c.size item := by
      unfold prepare at made
      dsimp only at made
      split at made
      · cases made
      · cases made
        rfl
    have ready : ∀ p ∈ w.prepared ++ [⟨item, size, capture.critical, waits⟩], p.size = c.size p.item :=
      forall_mem_append.mpr ⟨kept.ready, forall_mem_singleton.mpr measured⟩
    exact ⟨kept.books, kept.wired, kept.sizes, kept.bytes, kept.admission, ready, kept.measured, kept.taken⟩

theorem admits (kept : Kept s c w) {admission : Admission} (inside : w.admission = some admission) (now : ℕ) :
    Kept s c (w.admits s admission now) := by
  obtain ⟨lower, unlocked⟩ := kept.admission admission inside
  have measured := kept.measured admission inside
  have nobody : ∀ a, a ∉ (none : Option Admission) := fun a => Option.not_mem_none a
  unfold World.admits
  dsimp only
  split
  · exact ⟨kept.books.refuses, kept.wired, kept.sizes, kept.bytes, fun a there => absurd there (nobody a),
      kept.ready, fun a there => absurd there (nobody a), kept.taken⟩
  · rename_i buffer made
    unfold admitItem at made
    split at made
    · cases made
    rename_i room
    cases made
    have books := kept.books
    have account := books.sealedBytes
    rw [Stage.taken_of_unlocked unlocked] at books
    constructor
    case books =>
      show Books s.maxUnacknowledgedBytes _ w.batches w.settled w.frames (w.held w.stage.held)
        ((w.buffer.items ++ [admission.prepared.item]).length + w.stage.taken.1)
        (w.buffer.bytes + admission.prepared.size + w.stage.taken.2)
      rw [Stage.taken_of_unlocked unlocked, length_append, length_singleton]
      exact books.admits (by omega)
    case wired => exact kept.wired
    case sizes =>
      show w.buffer.sizes ++ [admission.prepared.size] = (w.buffer.items ++ [admission.prepared.item]).map c.size
      rw [map_append, map_singleton, measured, kept.sizes]
    case bytes =>
      show w.buffer.bytes + admission.prepared.size = (w.buffer.sizes ++ [admission.prepared.size]).sum
      rw [sum_append, sum_singleton, kept.bytes]
    case admission => exact fun a there => absurd there (nobody a)
    case ready => exact kept.ready
    case measured => exact fun a there => absurd there (nobody a)
    case taken => exact kept.taken

theorem moves (kept : Kept s c w) {e : Event} (fair : honest c w e = true) {w' : World}
    (next : step s c w e = some w') : Kept s c w' := by
  unfold step at next
  split at next
  · cases next
    exact kept.captures _ _
  · rename_i thread
    split at next
    · cases next
    rename_i free
    obtain ⟨prepared, there, rfl⟩ := Option.map_eq_some_iff.mp next
    have unlocked : w.stage.locks = false := by
      cases locks : w.stage.locks with
      | false => rfl
      | true => simp [locks] at free
    have measured := kept.ready prepared (mem_of_getElem? there)
    refine ⟨kept.books, kept.wired, kept.sizes, kept.bytes, ?_, ?_, ?_, kept.taken⟩
    · rintro a ⟨⟩
      exact ⟨le_rfl, unlocked⟩
    · exact fun p inside => kept.ready p (mem_of_mem_eraseIdx inside)
    · rintro a ⟨⟩
      exact measured
  · split at next
    · cases next
      exact ⟨kept.books, kept.wired, kept.sizes, kept.bytes, kept.admission,
        fun p inside => kept.ready p (mem_of_mem_eraseIdx inside), kept.measured, kept.taken⟩
    · cases next
  · obtain ⟨admission, inside, rfl⟩ := Option.map_eq_some_iff.mp next
    exact kept.admits inside _
  · split at next
    · rename_i idle
      cases next
      exact kept.calls idle _ _
    · cases next
  · split at next
    · split at next
      · rename_i idle
        cases next
        exact kept.calls idle _ _
      · cases next
    · cases next
      exact kept
  · exact kept.turns fair next
  · split at next
    · rename_i free
      cases next
      obtain ⟨idle, carries⟩ := Bool.and_eq_true_iff.mp free
      have nothing : w.delivery.onTheWire = [] := by
        cases there : w.delivery.outbox with
        | none => rw [Delivery.onTheWire, there]; rfl
        | some outbox =>
          rw [there] at carries
          rw [Delivery.onTheWire, there]
          exact List.isEmpty_iff.mp carries
      have held : w.stage.held = [] := by
        rw [Stage.eq_of_isIdle idle]
        rfl
      have unlocked : w.stage.locks = false := by
        rw [Stage.eq_of_isIdle idle]
        rfl
      refine kept.rests ⟨?_, unlocked⟩
      show Through s w _ w.stage.held
      rw [held]
      exact (kept.rested idle).drops nothing
    · cases next
      exact kept

end Kept

def World.quiet (w : World) : Bool := w.stage.isIdle && w.admission.isNone

/-- What is said of the driver at every moment, and between its operations. -/
structure Accounted (s : Settings) (w : World) : Prop where
  bound : w.buffer.bytes + w.counters.sealedBytes ≤ s.maxUnacknowledgedBytes
  resent : ∀ frame ∈ w.frames, Carries w.batches frame
  items : w.quiet = true → w.counters.captured = w.buffer.items.length + w.counters.unacknowledgedItems +
    w.counters.accepted + w.counters.rejected + w.counters.lost
  bytes : w.quiet = true → w.counters.sealedBytes =
    bytesOf w.delivery.retained + bytesOf (w.delivery.onTheWire.map Prod.snd)
  once : w.quiet = true → (w.delivery.retained.map Pending.order ++
    w.delivery.onTheWire.map (fun entry => entry.2.order) ++ w.settled).Perm (List.range w.batches.length)
  known : w.quiet = true → ∀ batch ∈ w.delivery.retained ++ w.delivery.onTheWire.map Prod.snd,
    Known w.batches batch

theorem Kept.accounted {s : Settings} {c : Codec} {w : World} (kept : Kept s c w) : Accounted s w := by
  have rested (quiet : w.quiet = true) : Through s w w [] := kept.rested (Bool.and_eq_true_iff.mp quiet).1
  constructor
  case bound =>
    have bound := kept.books.bound
    have account := kept.books.sealedBytes
    omega
  case resent => exact kept.books.carried
  case items =>
    intro quiet
    have books := (rested quiet).books
    rw [books.unacknowledged]
    exact books.totals
  case bytes =>
    intro quiet
    rw [(rested quiet).books.sealedBytes]
    show bytesOf (w.delivery.retained ++ _) = _
    rw [bytesOf, map_append, sum_append]
    rfl
  case once =>
    intro quiet
    have once : ((w.delivery.retained ++ w.delivery.onTheWire.map Prod.snd).map Pending.order ++
        w.settled).Perm (List.range w.batches.length) := (rested quiet).books.once
    rwa [map_append, map_map] at once
  case known => exact fun quiet => (rested quiet).books.known

/-- Every run accounts for every item, whatever the collector answers. -/
theorem every_item_accounted {s : Settings} {c : Codec} {w : World}
    (run : Reach (step s c) (fun w e => honest c w e = true) .new w) : Accounted s w :=
  (run.invariant (Kept s c) .new fun _ _ _ kept fair next => kept.moves fair next).accounted

/-! A connection that breaks under two batches, and a batch that the collector refuses. -/

def small : Settings where
  collectorAddress := "collector:7600"
  maxItems := 2
  maxBatchBytes := 4096
  linger := 100000000
  maxFrameBytes := 8192
  maxUnacknowledgedBytes := 64
  maxInFlightBatches := 4
  maxBatchAttempts := 2
  callTimeout := 1000
  retryBackoffMin := 100
  retryBackoffMax := 30000
  properties := [("region", "north")]
  dryRun := false
  word := by decide

/-- An item is twelve bytes, and the first byte of a receipt is how many items it accepts. -/
def short : Codec where
  encodeTelemetryItem := fun item => List.replicate 11 0 ++ [UInt8.ofNat (item.envelope.sequence.getD 0)]
  encodeSubmitBatchRequest := fun request => request.batch.batchId ++ [UInt8.ofNat request.batch.items.length]
  decodeServiceError := fun _ => .ok ⟨.invalidArgument, "The batch is not one.", false⟩
  decodeSubmitBatchResponse := fun payload => match payload with
    | [] => .error "It is empty."
    | count :: _ => .ok ⟨[], count.toNat, 1, 0, none, none⟩
  written := fun _ empty => by cases List.append_eq_nil_iff.mp empty |>.2

def said : Capture := ⟨emptyItem (.bare [1] .event 0), false⟩

def capturesOne : List Event := [.captures said true, .enters 0, .admits 0]

/-- A batch goes out: the head of the loop, room, the buffer, the seal, the measure and the frame. -/
def goesOut (id : Bytes) : List Event :=
  [.turns {}, .turns {}, .turns {}, .turns { batchId := id }, .turns {}, .turns {}]

def receipt (id : ℕ) (accepted : UInt8) : Turn := { heard := .ok (id, ⟨.ok, none, none, [accepted]⟩) }

def refusal (id : ℕ) : Turn := { heard := .ok (id, ⟨.ok, none, some serviceErrorVariant, []⟩) }

def cut : Turn := { heard := .error (.unavailable "The collector closed the connection.") }

/-- Three items go out in two batches, two more are buffered and a sixth finds no room. The connection
breaks, and both batches go again; one is accepted and one refused. -/
def broken : List Event :=
  capturesOne ++ capturesOne ++ capturesOne ++ [.calls .submit 0] ++ goesOut [1] ++ goesOut [2] ++
    [.turns {}] ++ capturesOne ++ capturesOne ++ capturesOne ++
    [.calls .drain 0, .turns cut, .turns {}, .turns {}, .turns {},
      .turns {}, .turns {}, .turns {}, .turns {}, .turns {}, .turns {}, .turns (receipt 3 2),
      .turns (refusal 4), .closes]

theorem broken_accounted : ∃ w, Reach (step small short) (fun w e => honest short w e = true) .new w ∧
    w.quiet = true ∧ w.frames.map Frame.order = [0, 1, 0, 1] ∧ w.settled = [0, 1] ∧
    (w.counters.captured, w.counters.accepted, w.counters.lost) = (5, 2, 1) ∧ Accounted small w := by
  have ran : (exec (guarded (step small short) (fun w e => honest short w e = true)) .new broken).any
      (fun w => w.quiet = true ∧ w.frames.map Frame.order = [0, 1, 0, 1] ∧ w.settled = [0, 1] ∧
        (w.counters.captured, w.counters.accepted, w.counters.lost) = (5, 2, 1)) = true := by
    decide +kernel
  obtain ⟨w, run, found⟩ := Reach.of_exec_any ran
  obtain ⟨quiet, frames, settled, totals⟩ := of_decide_eq_true found
  exact ⟨w, run, quiet, frames, settled, totals, every_item_accounted run⟩

end TallyOwl.Driver
