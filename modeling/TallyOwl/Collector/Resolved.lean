import TallyOwl.Collector.Resolver

/-! What a resolved credential rests on: an answer of the head that still stands, over any order of
steps of any number of calls. -/
namespace TallyOwl.Resolver
open Lib Wire List
open Collector (Tenancy)

/-- The head gave the answer, and no refusal of the credential among some replies came after it. -/
structure LastWord (replies : List Reply) (credential : String) (before : List ℕ) (place : ℕ)
    (askedAt : Int) (answer : ResolveKeyResponse) : Prop where
  there : replies[place]? = some ⟨credential, askedAt, .ok answer⟩
  last : ∀ q ∈ before, place < q → ∀ reply, replies[q]? = some reply →
    reply.credential = credential → reply.refused = false

def Backs (replies : List Reply) (credential : String) (before : List ℕ) (held : Held) : Prop :=
  ∃ place askedAt answer, LastWord replies credential before place askedAt answer ∧
    toTenancy answer = .ok held.tenancy ∧ held.freshUntil = askedAt + period answer ∧
      held.expiresAt = answer.expiresAt

/-- What a call may return a tenancy on: the head answered it at some call, it is within its period
and the grace and before its expiry, and no refusal came after it that was taken in before the
call began. -/
def Vouched (r : TenancyResolver) (replies : List Reply) (d : Call) (tenancy : Tenancy) : Prop :=
  ∃ place askedAt answer, LastWord replies d.credential d.before place askedAt answer ∧
    toTenancy answer = .ok tenancy ∧ d.now < askedAt + period answer + r.graceMs ∧
      live answer.expiresAt d.now = true

/-- A reply that is not taken in yet is the latest for its credential. -/
structure Pending (replies : List Reply) (taken : List ℕ) (d : Call) (place : ℕ) (answer : Answer) : Prop where
  there : replies[place]? = some ⟨d.credential, d.now, answer⟩
  fresh : place ∉ taken
  latest : ∀ (q : ℕ), place < q → ∀ reply, replies[q]? = some reply → reply.credential ≠ d.credential

def Call.flies (d : Call) : Prop := ∃ f, d.spot = .flies f

def Fits (r : TenancyResolver) (replies : List Reply) (taken : List ℕ) (d : Call) : Prop :=
  match d.stage with
  | .known => d.spot = .alone ∨ d.flies
  | .refused held | .outage held | .flood held =>
      (d.spot = .alone ∨ d.flies) ∧ ∀ h, held = some h → Backs replies d.credential d.before h
  | .joins => d.spot = .alone
  | .waits => True
  | .asks | .calls | .remembers _ => d.flies
  | .replied place answer | .takes place answer => d.flies ∧ Pending replies taken d place answer
  | .forgives tenancy => d.flies ∧ Vouched r replies d tenancy
  | .unlocks answer | .leaves answer | .drops answer | .returned answer =>
      ∀ tenancy, answer = .ok tenancy → Vouched r replies d tenancy

def Spot.joined : Spot → Option ℕ
  | .waits f | .flies f | .landed f => some f
  | _ => none

structure Sound (r : TenancyResolver) (s : State) (d : Call) : Prop where
  fits : Fits r s.replies s.takenIn d
  joined : ∀ f, d.spot.joined = some f → s.flights.get? d.credential = some f
  before : ∀ q ∈ d.before, q ∈ s.takenIn

structure Kept (r : TenancyResolver) (s : State) : Prop where
  each : ∀ (i : ℕ) d, s.calls[i]? = some d → Sound r s d
  turns : ∀ (i j : ℕ) d e f, s.calls[i]? = some d → s.calls[j]? = some e → d.spot = .flies f →
    e.spot = .flies f → i = j
  known : ∀ c h, s.known.get? c = some h → Backs s.replies c s.takenIn h
  taken : ∀ q ∈ s.takenIn, q < s.replies.length
  bound : s.refused.entries.length ≤ maxRefused

variable {r : TenancyResolver} {s t : State} {i : ℕ} {d d' : Call}

theorem LastWord.mono {replies replies' : List Reply} {credential : String} {before before' : List ℕ}
    {place : ℕ} {askedAt : Int} {answer : ResolveKeyResponse}
    (word : LastWord replies credential before place askedAt answer)
    (grows : ∀ (q : ℕ) reply, replies[q]? = some reply → replies'[q]? = some reply)
    (back : ∀ q ∈ before', ∀ reply, replies'[q]? = some reply → reply.credential = credential →
      reply.refused = true → q ∈ before ∧ replies[q]? = some reply) :
    LastWord replies' credential before' place askedAt answer := by
  refine ⟨grows _ _ word.there, fun q inside later reply found same => ?_⟩
  by_contra refused
  obtain ⟨old, there⟩ := back q inside reply found same (by simpa using refused)
  exact refused (word.last q old later reply there same)

theorem Backs.mono {replies replies' : List Reply} {credential : String} {before before' : List ℕ}
    {held : Held} (backs : Backs replies credential before held)
    (grows : ∀ (q : ℕ) reply, replies[q]? = some reply → replies'[q]? = some reply)
    (back : ∀ q ∈ before', ∀ reply, replies'[q]? = some reply → reply.credential = credential →
      reply.refused = true → q ∈ before ∧ replies[q]? = some reply) : Backs replies' credential before' held := by
  obtain ⟨place, askedAt, answer, word, rest⟩ := backs
  exact ⟨place, askedAt, answer, word.mono grows back, rest⟩

theorem Backs.fewer {replies : List Reply} {credential : String} {before before' : List ℕ}
    {held : Held} (backs : Backs replies credential before held) (fewer : ∀ q ∈ before', q ∈ before) :
    Backs replies credential before' held :=
  backs.mono (fun _ _ found => found) fun q inside _ found _ _ => ⟨fewer q inside, found⟩

theorem Backs.vouches {replies : List Reply} {held : Held} (backs : Backs replies d.credential d.before held)
    (inGrace : d.now < held.freshUntil + r.graceMs) (alive : live held.expiresAt d.now = true) :
    Vouched r replies d held.tenancy := by
  obtain ⟨place, askedAt, answer, word, read, fresh, expires⟩ := backs
  exact ⟨place, askedAt, answer, word, read, fresh ▸ inGrace, expires ▸ alive⟩

theorem throughAnOutage_vouches {replies : List Reply} {held : Option Held} {cause : String}
    {tenancy : Tenancy} (backs : ∀ h, held = some h → Backs replies d.credential d.before h)
    (answered : throughAnOutage r held d.now cause = .ok tenancy) : Vouched r replies d tenancy := by
  unfold throughAnOutage at answered
  cases held with
  | none => cases answered
  | some h =>
    simp only at answered
    split at answered <;> rename_i graced
    · cases answered
      exact (backs h rfl).vouches graced.1 graced.2
    · cases answered

theorem Fits.mono {replies replies' : List Reply} {taken taken' : List ℕ} (fits : Fits r replies taken d)
    (grows : ∀ (q : ℕ) reply, replies[q]? = some reply → replies'[q]? = some reply)
    (back : ∀ q ∈ d.before, ∀ reply, replies'[q]? = some reply → replies[q]? = some reply)
    (pending : ∀ place answer, d.flies → Pending replies taken d place answer →
      Pending replies' taken' d place answer) : Fits r replies' taken' d := by
  have backs : ∀ h, Backs replies d.credential d.before h → Backs replies' d.credential d.before h :=
    fun h old => old.mono grows fun q inside reply found _ _ => ⟨inside, back q inside reply found⟩
  have vouched : ∀ tenancy, Vouched r replies d tenancy → Vouched r replies' d tenancy := by
    rintro tenancy ⟨place, askedAt, answer, word, rest⟩
    exact ⟨place, askedAt, answer,
      word.mono grows fun q inside reply found _ _ => ⟨inside, back q inside reply found⟩, rest⟩
  unfold Fits at fits ⊢
  cases stage : d.stage <;> simp only [stage] at fits ⊢
  case refused | outage | flood => exact ⟨fits.1, fun h held => backs h (fits.2 h held)⟩
  case replied | takes => exact ⟨fits.1, pending _ _ fits.1 fits.2⟩
  case forgives => exact ⟨fits.1, vouched _ fits.2⟩
  case unlocks | leaves | drops | returned =>
    exact fun tenancy same => vouched tenancy (fits tenancy same)
  all_goals exact fits

theorem Kept.solo (kept : Kept r s) {j : ℕ} {e : Call} (there : s.calls[i]? = some d)
    (other : s.calls[j]? = some e) (first : d.flies) (second : e.flies)
    (same : e.credential = d.credential) : j = i := by
  obtain ⟨f, mine⟩ := first
  obtain ⟨g, its⟩ := second
  have inMap := (kept.each i d there).joined f (by rw [mine]; rfl)
  have alsoInMap := (kept.each j e other).joined g (by rw [its]; rfl)
  obtain rfl : g = f := Option.some.inj (alsoInMap.symm.trans (same ▸ inMap))
  exact kept.turns j i e d g other there its mine

theorem Kept.of_set (kept : Kept r s) (there : s.calls[i]? = some d) (calls : t.calls = s.calls.set i d')
    (sound : Sound r t d') (others : ∀ (j : ℕ) e, j ≠ i → s.calls[j]? = some e → Sound r t e)
    (turn : ∀ f, d'.spot = .flies f → d.spot = .flies f ∨ ∀ e ∈ s.calls, e.spot ≠ .flies f)
    (known : ∀ c h, t.known.get? c = some h → Backs t.replies c t.takenIn h)
    (taken : ∀ q ∈ t.takenIn, q < t.replies.length) (bound : t.refused.entries.length ≤ maxRefused) : Kept r t := by
  have mine : ∀ (j : ℕ) e f, j ≠ i → s.calls[j]? = some e → d'.spot = .flies f → e.spot ≠ .flies f := by
    intro j e f apart found mine its
    rcases turn f mine with old | free
    · exact apart (kept.turns j i e d f found there its old)
    · exact free e (mem_of_getElem? found) its
  refine ⟨fun j e found => ?_, fun j k e e' f first second => ?_, known, taken, bound⟩
  · rw [calls] at found
    rcases getElem?_set_cases found with ⟨-, rfl⟩ | ⟨apart, old⟩
    · exact sound
    · exact others j e apart old
  · rw [calls] at first second
    intro its also
    rcases getElem?_set_cases first with ⟨rfl, rfl⟩ | ⟨apart, old⟩ <;>
      rcases getElem?_set_cases second with ⟨same, rfl⟩ | ⟨apart', old'⟩
    · exact same.symm
    · exact absurd also (mine k e' f apart' old' its)
    · subst same
      exact absurd its (mine j e f apart old also)
    · exact kept.turns j k e e' f old old' its also

theorem Kept.quiet (kept : Kept r s) (there : s.calls[i]? = some d) (calls : t.calls = s.calls.set i d')
    (shared : t.flights = s.flights ∧ t.replies = s.replies ∧ t.takenIn = s.takenIn)
    (known : ∀ c h, t.known.get? c = some h → s.known.get? c = some h)
    (bound : t.refused.entries.length ≤ maxRefused) (sound : Sound r s d')
    (turn : ∀ f, d'.spot = .flies f → d.spot = .flies f ∨ ∀ e ∈ s.calls, e.spot ≠ .flies f) : Kept r t := by
  obtain ⟨flights, replies, taken⟩ := shared
  have moves : ∀ e, Sound r s e → Sound r t e := by
    rintro e ⟨fits, joined, before⟩
    refine ⟨?_, ?_, ?_⟩
    · rw [replies, taken]
      exact fits
    · rw [flights]
      exact joined
    · rw [taken]
      exact before
  refine kept.of_set there calls (moves d' sound) (fun j e _ found => moves e (kept.each j e found)) turn
    (fun c h found => ?_) ?_ bound
  · rw [replies, taken]
    exact kept.known c h (known c h found)
  · rw [replies, taken]
    exact kept.taken

theorem Kept.goes (kept : Kept r s) (there : s.calls[i]? = some d) {stage : Stage}
    (fits : Fits r s.replies s.takenIn { d with stage }) : Kept r (s.goes i d stage) :=
  kept.quiet there rfl ⟨rfl, rfl, rfl⟩ (fun _ _ found => found) kept.bound
    ⟨fits, (kept.each i d there).joined, (kept.each i d there).before⟩ fun _ => .inl

theorem Kept.settles (kept : Kept r s) (there : s.calls[i]? = some d) {answer : Except TallyOwlError Tenancy}
    (vouched : ∀ tenancy, answer = .ok tenancy → Vouched r s.replies d tenancy) : Kept r (s.settles i d answer) := by
  unfold State.settles
  refine kept.goes there ?_
  split <;> exact vouched

theorem length_rememberRefusal {refused : OrderedMap String Refused} {credential message : String}
    {now : Int} (bound : refused.entries.length ≤ maxRefused) :
    (rememberRefusal refused credential message now).1.entries.length ≤ maxRefused := by
  unfold rememberRefusal
  simp only
  generalize fresh : (if (decide (maxRefused ≤ refused.entries.length) && (refused.get? credential).isNone) = true
    then refused.filter fun _ entry => now < entry.keptUntil else refused) = memory
  have within : memory.entries.length ≤ maxRefused := by
    rw [← fresh]
    split
    · exact (length_filter_le _ _).trans bound
    · exact bound
  split <;> rename_i full
  · exact within
  · rw [OrderedMap.length_insert]
    split <;> rename_i there
    · rw [there, Option.isNone_none, Bool.and_true, decide_eq_true_eq] at full
      exact Nat.not_le.mp full
    · exact within

theorem get?_hold {known : OrderedMap String Held} {credential c : String} {held h : Held} {now : Int}
    (found : (hold r known credential held now).get? c = some h) :
    (c = credential ∧ h = held) ∨ (c ≠ credential ∧ known.get? c = some h) := by
  unfold hold at found
  rw [OrderedMap.get?_insert] at found
  split at found <;> rename_i same
  · exact .inl ⟨same, (Option.some.inj found).symm⟩
  · refine .inr ⟨same, ?_⟩
    split at found
    · exact OrderedMap.get?_eq_some.mpr (OrderedMap.mem_filter.mp (OrderedMap.get?_eq_some.mp found)).1
    · exact found

theorem of_get?_erase {known : OrderedMap String Held} {credential c : String} {h : Held}
    (found : (known.erase credential).get? c = some h) : c ≠ credential ∧ known.get? c = some h := by
  rw [OrderedMap.get?_erase] at found
  split at found <;> rename_i same
  · cases found
  · exact ⟨same, found⟩

theorem Kept.takes_in (kept : Kept r s) (there : s.calls[i]? = some d) {place : ℕ} {answer : Answer}
    (flies : d.flies) (pending : Pending s.replies s.takenIn d place answer) {stage : Stage}
    {known : OrderedMap String Held} (fits : Fits r s.replies (place :: s.takenIn) { d with stage })
    (rests : ∀ c h, known.get? c = some h → Backs s.replies c (place :: s.takenIn) h) :
    Kept r ({ s with takenIn := place :: s.takenIn, known }.goes i d stage) := by
  have sound := kept.each i d there
  refine kept.of_set there rfl ⟨fits, sound.joined, fun q inside => mem_cons_of_mem _ (sound.before q inside)⟩
    (fun j e apart found => ?_) (fun _ => .inl) rests ?_ kept.bound
  · have other := kept.each j e found
    refine ⟨other.fits.mono (fun _ _ found => found) (fun _ _ _ found => found) ?_, other.joined,
      fun q inside => mem_cons_of_mem _ (other.before q inside)⟩
    intro p a its there'
    refine ⟨there'.there, ?_, there'.latest⟩
    intro inside
    rcases mem_cons.mp inside with rfl | old
    · have same := congrArg Reply.credential (Option.some.inj (there'.there.symm.trans pending.there))
      exact apart (kept.solo there found flies its same)
    · exact there'.fresh old
  · intro q inside
    rcases mem_cons.mp inside with rfl | old
    · exact (List.getElem?_eq_some_iff.mp pending.there).1
    · exact kept.taken q old

theorem Backs.taken {taken : List ℕ} {replies : List Reply} {c : String} {h : Held} {place : ℕ} {reply : Reply}
    (backs : Backs replies c taken h) (there : replies[place]? = some reply)
    (other : reply.credential ≠ c ∨ reply.refused = false) : Backs replies c (place :: taken) h := by
  refine backs.mono (fun _ _ found => found) fun q inside x found same refused => ⟨?_, found⟩
  rcases mem_cons.mp inside with rfl | old
  · obtain rfl := Option.some.inj (there.symm.trans found)
    rcases other with apart | kind
    · exact absurd same apart
    · rw [kind] at refused
      cases refused
  · exact old

theorem Kept.takes (kept : Kept r s) (there : s.calls[i]? = some d) {place : ℕ} {answer : Answer}
    (flies : d.flies) (pending : Pending s.replies s.takenIn d place answer) :
    Kept r ({ s with takenIn := place :: s.takenIn }.takes r i d answer) := by
  have sound := kept.each i d there
  have rests : (⟨d.credential, d.now, answer⟩ : Reply).refused = false → ∀ c h,
      s.known.get? c = some h → Backs s.replies c (place :: s.takenIn) h := fun kind c h found =>
    (kept.known c h found).taken pending.there (.inr kind)
  have rests_erase : ∀ c h, (s.known.erase d.credential).get? c = some h →
      Backs s.replies c (place :: s.takenIn) h := by
    intro c h found
    obtain ⟨apart, old⟩ := of_get?_erase found
    exact (kept.known c h old).taken pending.there (.inl fun same => apart same.symm)
  cases answer with
  | ok answer =>
    have word : ∀ before, LastWord s.replies d.credential before place d.now answer := fun before =>
      ⟨pending.there, fun q _ later reply found same => absurd same (pending.latest q later reply found)⟩
    simp only [State.takes]
    cases read : toTenancy answer with
    | error e => exact kept.takes_in there flies pending (fun tenancy same => (by cases same)) (rests rfl)
    | ok tenancy =>
      simp only
      split <;> rename_i alive
      · refine kept.takes_in there flies pending ⟨flies, ?_⟩ fun c h found => ?_
        · have positive : 0 < period answer := by
            unfold period fallbackTtlMs
            split <;> omega
          exact ⟨place, d.now, answer, word _, read, by show d.now < _; omega, alive⟩
        · rcases get?_hold found with ⟨rfl, rfl⟩ | ⟨-, old⟩
          · exact ⟨place, d.now, answer, word _, read, rfl, rfl⟩
          · exact rests rfl c h old
      · exact kept.takes_in there flies pending (fun tenancy same => (by cases same)) rests_erase
  | error e =>
    simp only [State.takes]
    split <;> rename_i refuses
    · exact kept.takes_in there flies pending flies rests_erase
    · have stands := rests (by simpa [Reply.refused] using refuses)
      refine kept.takes_in there flies pending (fun tenancy same => ?_) stands
      refine throughAnOutage_vouches (fun h found => ?_) same
      exact (kept.known d.credential h found).fewer sound.before

theorem Kept.flight (kept : Kept r s) (there : s.calls[i]? = some d) {spot : Spot} {stage : Stage}
    {flights : OrderedMap String ℕ} {made : ℕ} (fits : Fits r s.replies s.takenIn { d with spot, stage })
    (mine : ∀ f, spot.joined = some f → flights.get? d.credential = some f)
    (others : ∀ (j : ℕ) e, j ≠ i → s.calls[j]? = some e → ∀ f, e.spot.joined = some f →
      flights.get? e.credential = some f) (turn : ∀ f, spot ≠ .flies f) :
    Kept r ({ s with flights, flightsMade := made }.moved i d spot stage) :=
  kept.of_set there rfl ⟨fits, mine, (kept.each i d there).before⟩
    (fun j e apart found => ⟨(kept.each j e found).fits, others j e apart found, (kept.each j e found).before⟩)
    (fun f same => absurd same (turn f)) kept.known kept.taken kept.bound

theorem two_lt_strongCount {j : ℕ} {e : Call} {f : ℕ} (there : s.calls[i]? = some d)
    (found : s.calls[j]? = some e) (apart : j ≠ i) (inMap : s.flights.get? d.credential = some f)
    (mine : d.spot.flight = some f) (its : e.spot.flight = some f) : 2 < s.strongCount f := by
  have mapped : 0 < s.flights.values.count f :=
    count_pos_iff.mpr (OrderedMap.mem_values_iff.mpr ⟨_, inMap⟩)
  have pair : 2 ≤ s.calls.countP fun d => d.spot.flight = some f :=
    two_le_countP there found apart (by simpa using mine) (by simpa using its)
  unfold State.strongCount
  omega

theorem Spot.flight_of_joined {spot : Spot} {f : ℕ} (joined : spot.joined = some f) : spot.flight = some f := by
  cases spot <;> first | exact joined | cases joined

theorem Kept.moves (kept : Kept r s) (there : s.calls[i]? = some d) (next : s.moves r i d = some t) : Kept r t := by
  have sound := kept.each i d there
  have fits := sound.fits
  unfold Fits at fits
  unfold State.moves at next
  split at next <;> rename_i stage <;> simp only [stage] at fits
  case h_1 =>
    split at next <;> rename_i found
    · rename_i held
      have backs := (kept.known _ _ found).fewer sound.before
      split at next <;> rename_i fresh <;> cases next
      · refine kept.settles there fun tenancy same => ?_
        cases same
        exact backs.vouches (by omega) fresh.2
      · refine kept.goes there ⟨fits, fun h same => ?_⟩
        cases same
        exact backs
    · cases next
      exact kept.goes there ⟨fits, fun h same => (by cases same)⟩
  case h_2 =>
    split at next
    · split at next <;> cases next
      · exact kept.settles there fun tenancy same => (by cases same)
      · exact kept.goes there fits
    · cases next
      exact kept.goes there fits
  case h_3 =>
    split at next <;> cases next
    · exact kept.settles there fun tenancy same => throughAnOutage_vouches fits.2 same
    · exact kept.goes there fits
  case h_4 =>
    split at next <;> cases next
    · exact kept.settles there fun tenancy same => (by cases same)
    · refine kept.goes there ?_
      split <;> rename_i spot
      · exact spot
      · exact fits.1.resolve_left spot
  case h_5 =>
    split at next <;> rename_i mapped <;> cases next
    · refine @Kept.flight _ _ _ _ kept there _ _ s.flights _ trivial ?_ ?_ fun f same => (by cases same)
      · rintro f same
        cases same
        exact mapped
      · exact fun j e _ found => (kept.each j e found).joined
    · refine kept.flight there trivial ?_ ?_ fun f same => (by cases same)
      · rintro f same
        cases same
        rw [OrderedMap.get?_insert, if_pos rfl]
      · intro j e _ found f joined
        have old := (kept.each j e found).joined f joined
        have apart : e.credential ≠ d.credential := by
          intro same
          rw [same, mapped] at old
          cases old
        rw [OrderedMap.get?_insert, if_neg apart]
        exact old
  case h_6 =>
    split at next <;> rename_i spot
    · split at next <;> rename_i free <;> cases next
      rename_i flight
      refine kept.quiet there rfl ⟨rfl, rfl, rfl⟩ (fun _ _ found => found) kept.bound
        ⟨.inr ⟨flight, rfl⟩, fun f same => ?_, sound.before⟩ fun f same => ?_
      · cases same
        exact sound.joined flight (by rw [spot]; rfl)
      · cases same
        exact .inr free
    · cases next
  case h_7 =>
    cases next
    exact kept.quiet there rfl ⟨rfl, rfl, rfl⟩ (fun _ _ found => found) kept.bound
      ⟨fits, sound.joined, sound.before⟩ fun _ => .inl
  case h_8 => cases next
  case h_9 =>
    cases next
    obtain ⟨flies, pending⟩ := fits
    exact kept.quiet there rfl ⟨rfl, rfl, rfl⟩ (fun _ _ found => found) kept.bound
      ⟨⟨flies, pending.there, pending.fresh, pending.latest⟩, sound.joined, sound.before⟩ fun _ => .inl
  case h_10 =>
    cases next
    exact kept.takes there fits.1 fits.2
  case h_11 tenancy =>
    cases next
    refine kept.quiet there rfl ⟨rfl, rfl, rfl⟩ (fun _ _ found => found)
      ((length_filter_le _ _).trans kept.bound) ⟨fun t same => ?_, sound.joined, sound.before⟩ fun _ => .inl
    cases same
    exact fits.2
  case h_12 =>
    cases next
    exact kept.quiet there rfl ⟨rfl, rfl, rfl⟩ (fun _ _ found => found) (length_rememberRefusal kept.bound)
      ⟨fun t same => (by cases same), sound.joined, sound.before⟩ fun _ => .inl
  case h_13 =>
    split at next <;> rename_i spot <;> cases next
    rename_i flight
    refine kept.quiet there rfl ⟨rfl, rfl, rfl⟩ (fun _ _ found => found) kept.bound
      ⟨fits, fun f same => ?_, sound.before⟩ fun f same => (by cases same)
    cases same
    exact sound.joined flight (by rw [spot]; rfl)
  case h_14 =>
    split at next <;> rename_i spot <;> cases next
    rename_i flight
    have mapped := sound.joined flight (by rw [spot]; rfl)
    refine kept.flight there fits (fun f same => (by cases same)) ?_ fun f same => (by cases same)
    intro j e apart found f joined
    have old := (kept.each j e found).joined f joined
    split <;> rename_i alone
    · rw [OrderedMap.get?_erase]
      split <;> rename_i same
      · rw [same, mapped] at old
        cases old
        have shared := two_lt_strongCount there found apart mapped (by rw [spot]; rfl)
          (Spot.flight_of_joined joined)
        omega
      · exact old
    · exact old
  case h_15 =>
    cases next
    exact kept.quiet there rfl ⟨rfl, rfl, rfl⟩ (fun _ _ found => found) kept.bound
      ⟨fits, fun f same => (by cases same), sound.before⟩ fun f same => (by cases same)
  case h_16 => cases next

theorem Kept.answers (kept : Kept r s) (there : s.calls[i]? = some d) (stage : d.stage = .calls)
    (answer : Answer) : Kept r ({ s with replies := s.replies ++ [(⟨d.credential, d.now, answer⟩ : Reply)] }.goes i d
      (.replied s.replies.length answer)) := by
  have sound := kept.each i d there
  have flies : d.flies := by
    have fits := sound.fits
    unfold Fits at fits
    simpa only [stage] using fits
  have grows : ∀ (q : ℕ) reply, s.replies[q]? = some reply →
      (s.replies ++ [⟨d.credential, d.now, answer⟩])[q]? = some reply := fun q reply found =>
    (getElem?_append_left (List.getElem?_eq_some_iff.mp found).1).trans found
  have back : ∀ q ∈ s.takenIn, ∀ reply, (s.replies ++ [⟨d.credential, d.now, answer⟩])[q]? = some reply →
      s.replies[q]? = some reply := fun q inside reply found =>
    (getElem?_append_left (kept.taken q inside)).symm.trans found
  refine kept.of_set there rfl ⟨⟨flies, ?_, ?_, ?_⟩, sound.joined, sound.before⟩
    (fun j e apart found => ?_) (fun _ => .inl) ?_ ?_ kept.bound
  · exact getElem?_concat_length
  · exact fun inside => absurd (kept.taken _ inside) (lt_irrefl _)
  · intro q later reply found
    rcases getElem?_push_cases found with ⟨rfl, -⟩ | ⟨short, -⟩
    · exact absurd later (lt_irrefl _)
    · exact absurd later (not_lt.mpr short.le)
  · have other := kept.each j e found
    refine ⟨other.fits.mono grows (fun q inside => back q (other.before q inside)) ?_, other.joined, other.before⟩
    intro p a its pending
    refine ⟨grows _ _ pending.there, pending.fresh, fun q later reply read => ?_⟩
    rcases getElem?_push_cases read with ⟨-, rfl⟩ | ⟨-, old⟩
    · exact fun same => apart (kept.solo there found flies its same.symm)
    · exact pending.latest q later reply old
  · exact fun c h held => (kept.known c h held).mono grows fun q inside reply found _ _ =>
      ⟨inside, back q inside reply found⟩
  · intro q inside
    have old := kept.taken q inside
    show q < (s.replies ++ [_]).length
    rw [length_append]
    omega

theorem Kept.step {e : Event} (kept : Kept r s) (next : s.step r e = some t) : Kept r t := by
  cases e with
  | begins credential now =>
    cases next
    refine ⟨fun i d found => ?_, fun i j d e f first second mine its => ?_, kept.known, kept.taken, kept.bound⟩
    · rcases getElem?_push_cases found with ⟨-, rfl⟩ | ⟨-, old⟩
      · refine ⟨?_, fun f same => (by cases same), fun q inside => inside⟩
        cases unread credential with
        | none => exact .inl rfl
        | some e => exact fun tenancy same => (by cases same)
      · exact ⟨(kept.each i d old).fits, (kept.each i d old).joined, (kept.each i d old).before⟩
    · rcases getElem?_push_cases first with ⟨-, rfl⟩ | ⟨-, old⟩
      · cases mine
      · rcases getElem?_push_cases second with ⟨-, rfl⟩ | ⟨-, old'⟩
        · cases its
        · exact kept.turns i j d e f old old' mine its
  | moves i =>
    obtain ⟨d, there, moved⟩ := Option.bind_eq_some_iff.mp next
    exact kept.moves there moved
  | answers i answer =>
    simp only [State.step] at next
    split at next <;> rename_i there
    · split at next <;> rename_i stage <;> cases next
      exact kept.answers there stage answer
    · cases next

theorem kept_of_reach (run : Reach (State.step r) anyStep .new s) : Kept r s :=
  run.invariant (Kept r)
    ⟨fun i d found => (by cases found), fun i j d e f found => (by cases found),
      fun c h found => (by cases found), fun q inside => (by cases inside), Nat.zero_le _⟩
    fun _ _ _ kept _ next => kept.step next

/-- Over any order of steps, what a call returns rests on an answer of the head that still stands, and
the memory of refusals is bounded. -/
theorem resolved (run : Reach (State.step r) anyStep .new s) :
    (∀ d ∈ s.calls, ∀ tenancy, d.stage = .returned (.ok tenancy) → Vouched r s.replies d tenancy) ∧
      s.refused.entries.length ≤ maxRefused := by
  have kept := kept_of_reach run
  refine ⟨fun d inside tenancy stage => ?_, kept.bound⟩
  obtain ⟨i, there⟩ := List.mem_iff_getElem?.mp inside
  have fits := (kept.each i d there).fits
  unfold Fits at fits
  simp only [stage] at fits
  exact fits tenancy rfl

/-! A key is resolved, the head goes away, and a minute later the held answer is served. -/

def graceful : TenancyResolver := ⟨60000, fun _ _ => 0⟩

def key : Bytes := List.replicate 16 7

def moves (call n : ℕ) : List Event := List.replicate n (.moves call)

def outage : List Event :=
  .begins "key" 1000 :: moves 0 11 ++ .answers 0 (.ok ⟨key, key, key, 30000, none⟩) :: moves 0 6 ++
    .begins "key" 80000 :: moves 1 11 ++ .answers 1 (.error (unavailable "")) :: moves 1 5

def Stage.served : Stage → Bool
  | .returned (.ok _) => true
  | _ => false

theorem outage_resolved : ∃ s, Reach (State.step graceful) anyStep .new s ∧
    (s.calls[1]?.any fun d => d.now = 80000 && d.stage.served) = true ∧
    (∀ d ∈ s.calls, ∀ tenancy, d.stage = .returned (.ok tenancy) → Vouched graceful s.replies d tenancy) ∧
      s.refused.entries.length ≤ maxRefused := by
  have ran : (exec (guarded (State.step graceful) anyStep) .new outage).any (fun s =>
      s.calls[1]?.any fun d => d.now = 80000 && d.stage.served) = true := by
    decide +kernel
  obtain ⟨s, run, served⟩ := Reach.of_exec_any ran
  exact ⟨s, run, served, resolved run⟩

/-- The stages of a call that is with the head. -/
def Stage.asksHead : Stage → Bool
  | .asks | .calls | .replied _ _ | .takes _ _ => true
  | _ => false

/-- About one credential at most one call is with the head, and all that joined it are on one flight. -/
structure SingleFlight (s : State) : Prop where
  one : ∀ (i j : ℕ) d e, s.calls[i]? = some d → s.calls[j]? = some e → d.credential = e.credential →
    d.stage.asksHead = true → e.stage.asksHead = true → i = j
  joined : ∀ d ∈ s.calls, ∀ e ∈ s.calls, d.credential = e.credential → ∀ f g, d.spot.joined = some f →
    e.spot.joined = some g → f = g

theorem Fits.flies {replies : List Reply} {taken : List ℕ} {d : Call} (fits : Fits r replies taken d)
    (busy : d.stage.asksHead = true) : d.flies := by
  unfold Fits at fits
  cases stage : d.stage with
  | asks => simpa only [stage] using fits
  | calls => simpa only [stage] using fits
  | replied place answer => simp only [stage] at fits; exact fits.1
  | takes place answer => simp only [stage] at fits; exact fits.1
  | _ => rw [stage] at busy; cases busy

/-- However many callers there are and however their steps interleave, a credential is asked about once at a time. -/
theorem single_flight (run : Reach (State.step r) anyStep .new s) : SingleFlight s := by
  have kept := kept_of_reach run
  refine ⟨fun i j d e there also same busy busy' => ?_, fun d inside e inside' same f g mine its => ?_⟩
  · exact kept.solo also there ((kept.each j e also).fits.flies busy') ((kept.each i d there).fits.flies busy) same
  · obtain ⟨i, there⟩ := mem_iff_getElem?.mp inside
    obtain ⟨j, also⟩ := mem_iff_getElem?.mp inside'
    have first := (kept.each i d there).joined f mine
    rw [same, (kept.each j e also).joined g its] at first
    exact (Option.some.inj first).symm

/-- One call asks, and the other waits for it. -/
theorem single_flight_two : ∃ s, Reach (State.step graceful) anyStep .new s ∧
    (s.calls[0]?.any fun d => d.stage.asksHead) = true ∧ (s.calls[1]?.any fun d => d.spot = .waits 0) = true ∧
      SingleFlight s := by
  have ran : (exec (guarded (State.step graceful) anyStep) .new
      (.begins "key" 1000 :: moves 0 10 ++ .begins "key" 1000 :: moves 1 5)).any (fun s =>
        (s.calls[0]?.any fun d => d.stage.asksHead) ∧ (s.calls[1]?.any fun d => d.spot = .waits 0)) = true := by
    decide +kernel
  obtain ⟨s, run, found⟩ := Reach.of_exec_any ran
  obtain ⟨asks, waits⟩ := of_decide_eq_true found
  exact ⟨s, run, asks, waits, single_flight run⟩

end TallyOwl.Resolver
