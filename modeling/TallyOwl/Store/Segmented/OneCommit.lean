import TallyOwl.Store.Segmented.Frame

/-! One batch, one logical commit. The receipt is looked up first and stored last, with
the log append between, so two deliveries of one batch agree only where the second looks
after the first has stored its receipt or given up. -/
namespace TallyOwl.Segmented
open Lib Format Locate RowCodec List OrderedMap

/-- Past its lookup, which found nothing, and short of its receipt. -/
def CommitStage.between : CommitStage → Bool
  | .stamped _ | .numbered _ _ | .appending _ _ _ | .logged _ _ _ => true
  | _ => false

def CommitStage.seals : CommitStage → Bool
  | .sealing _ => true
  | _ => false

def StoreError.isExhausted : StoreError → Bool
  | .exhausted _ => true
  | _ => false

/-- Everything the calls for one batch may say and do between them. -/
structure OneLogicalCommit (key : Id ×ₗ Id) (t : State) : Prop where
  agree : ∀ c ∈ t.commits, ∀ d ∈ t.commits, c.key = key → d.key = key → ∀ o p,
    c.stage = .returned (.ok o) → d.stage = .returned (.ok p) →
      o.accepted = p.accepted ∧ o.committedAt = p.committedAt ∧
        o.commitWatermark = p.commitWatermark
  fresh : ∀ (i j : Nat) (c d : Commit) (o p : CommitOutcome), t.commits[i]? = some c →
    t.commits[j]? = some d → c.key = key → d.key = key → c.stage = .returned (.ok o) →
      d.stage = .returned (.ok p) → o.deduplicated = false → p.deduplicated = false → i = j
  once : t.joined.count key ≤ 1
  settled : (∀ c ∈ t.commits, c.key = key → ∃ result, c.stage = .returned result) →
    (∃ c ∈ t.commits, c.key = key ∧ ∃ o, c.stage = .returned (.ok o)) →
      (∃ c ∈ t.commits, c.key = key ∧ ∃ o, c.stage = .returned (.ok o) ∧ o.deduplicated = false) ∧
        t.joined.count key = 1

/-- The process lives, no delivery of the batch looks up its receipt while another is
between its lookup and its receipt, and no seal that a commit of the batch runs fails for
another reason than space. -/
def OneAtATime (node : Node) (key : Id ×ₗ Id) (s : State) : Event → Prop
  | .crash => False
  | .call i (.lookup _) =>
      match s.commits[i]? with
      | some c => c.key = key → ∀ d ∈ s.commits, d.key = key → d.stage.between = false
      | none => True
  | .sealing e =>
      match s.up, s.turn with
      | some m, some holder =>
          match sealError node m holder e with
          | some error => error.isExhausted ∨ ∀ c ∈ s.commits, c.key = key → c.stage.seals = false
          | none => True
      | _, _ => True
  | _ => True

instance (node : Node) (key : Id ×ₗ Id) (s : State) (e : Event) :
    Decidable (OneAtATime node key s e) := by
  unfold OneAtATime
  split
  · infer_instance
  · split <;> infer_instance
  · split
    · split <;> infer_instance
    · infer_instance
  · infer_instance

def Waits (stage : CommitStage) : Prop :=
  stage = .begun ∨ stage.between = true ∨ ∃ e, stage = .returned (.error e)

/-- The call that stored the receipt, with `rows` rows, and how often these joined the
open buffer. -/
inductive Stored (r : Receipt) (rows : Nat) : CommitStage → Nat → Prop where
  | received (position : Nat) (all : rows = r.accepted) :
      Stored r rows (.received r.committedAt r.commitWatermark position) 0
  | due : Stored r rows (.due ⟨r.accepted, r.committedAt, r.commitWatermark, false⟩) 1
  | sealing : Stored r rows (.sealing ⟨r.accepted, r.committedAt, r.commitWatermark, false⟩) 1
  | returned : Stored r rows
      (.returned (.ok ⟨r.accepted, r.committedAt, r.commitWatermark, false⟩)) 1

theorem Stored.le_one {r : Receipt} {rows n : Nat} {stage : CommitStage} (stored : Stored r rows stage n) : n ≤ 1 := by
  cases stored <;> omega

theorem Stored.of_returned {r : Receipt} {rows n : Nat} {result : Except StoreError CommitOutcome}
    (stored : Stored r rows (.returned result) n) :
    result = .ok ⟨r.accepted, r.committedAt, r.commitWatermark, false⟩ ∧ n = 1 := by
  cases stored
  exact ⟨rfl, rfl⟩

def Repeats (r : Receipt) (stage : CommitStage) : Prop :=
  stage = .begun ∨ (∃ e, stage = .returned (.error e)) ∨
    stage = .returned (.ok ⟨r.accepted, r.committedAt, r.commitWatermark, true⟩)

inductive OneDelivery (key : Id ×ₗ Id) (s : State) : Prop where
  | before (absent : s.catalog.receipts.get? key = none) (none : s.joined.count key = 0)
      (waits : ∀ (i : Nat) (c : Commit), s.commits[i]? = some c → c.key = key → Waits c.stage)
      (alone : ∀ (i j : Nat) (c d : Commit), s.commits[i]? = some c → s.commits[j]? = some d →
        c.key = key → d.key = key → c.stage.between = true → d.stage.between = true → i = j)
  | after (r : Receipt) (i : Nat) (c : Commit) (held : s.catalog.receipts.get? key = some r)
      (here : s.commits[i]? = some c) (own : c.key = key)
      (stored : Stored r c.rows.length c.stage (s.joined.count key))
      (others : ∀ (j : Nat) (d : Commit), j ≠ i → s.commits[j]? = some d → d.key = key →
        Repeats r d.stage)

theorem OneDelivery.one {key : Id ×ₗ Id} {s : State} (known : OneDelivery key s) : OneLogicalCommit key s := by
  cases known with
  | before absent none waits alone =>
    have never : ∀ c ∈ s.commits, c.key = key → ∀ o, c.stage ≠ .returned (.ok o) := by
      intro c inside own o ok
      obtain ⟨i, here⟩ := mem_iff_getElem?.mp inside
      rcases waits i c here own with begun | between | ⟨e, failed⟩
      · rw [begun] at ok; cases ok
      · rw [ok] at between; cases between
      · rw [failed] at ok; cases ok
    refine ⟨?_, ?_, by omega, ?_⟩
    · intro c inside d _ own _ o p ok
      exact absurd ok (never c inside own o)
    · intro i j c d o p here _ own _ ok
      exact absurd ok (never c (mem_of_getElem? here) own o)
    · rintro - ⟨c, inside, own, o, ok⟩
      exact absurd ok (never c inside own o)
  | after r i c held here own stored others =>
    have told : ∀ (j : Nat) (d : Commit), s.commits[j]? = some d → d.key = key → ∀ o,
        d.stage = .returned (.ok o) → o.accepted = r.accepted ∧
          o.committedAt = r.committedAt ∧ o.commitWatermark = r.commitWatermark ∧
          (o.deduplicated = false → j = i) := by
      intro j d found same o ok
      by_cases first : j = i
      · subst first
        obtain rfl := Option.some.inj (here.symm.trans found)
        rw [ok] at stored
        obtain rfl := Except.ok.inj stored.of_returned.1
        exact ⟨rfl, rfl, rfl, fun _ => rfl⟩
      · rcases others j d first found same with begun | ⟨e, failed⟩ | again
        · rw [begun] at ok; cases ok
        · rw [failed] at ok; cases ok
        · rw [again] at ok
          cases ok
          exact ⟨rfl, rfl, rfl, by rintro ⟨⟩⟩
    refine ⟨?_, ?_, stored.le_one, ?_⟩
    · intro a insideA b insideB ownA ownB o p okA okB
      obtain ⟨j, foundA⟩ := mem_iff_getElem?.mp insideA
      obtain ⟨k, foundB⟩ := mem_iff_getElem?.mp insideB
      obtain ⟨a1, a2, a3, -⟩ := told j a foundA ownA o okA
      obtain ⟨b1, b2, b3, -⟩ := told k b foundB ownB p okB
      exact ⟨a1.trans b1.symm, a2.trans b2.symm, a3.trans b3.symm⟩
    · intro j k a b o p foundA foundB ownA ownB okA okB freshA freshB
      exact ((told j a foundA ownA o okA).2.2.2 freshA).trans
        ((told k b foundB ownB p okB).2.2.2 freshB).symm
    · intro finished _
      obtain ⟨result, done⟩ := finished c (mem_of_getElem? here) own
      rw [done] at stored
      obtain ⟨rfl, one⟩ := stored.of_returned
      exact ⟨⟨c, mem_of_getElem? here, own, _, done, rfl⟩, one⟩


section
variable {node : Node} {s t : State} {key : Id ×ₗ Id}

/-- How a call of the batch moves in a step that is not its own. -/
inductive Onward : CommitStage → CommitStage → Prop where
  | same (stage : CommitStage) : Onward stage stage
  | starts (o : CommitOutcome) : Onward (.due o) (.sealing o)
  | ends (o : CommitOutcome) : Onward (.sealing o) (.returned (.ok o))

variable {a b : CommitStage}

theorem Stored.onward {r : Receipt} {rows n : Nat} (stored : Stored r rows a n)
    (onward : Onward a b) : Stored r rows b n := by
  cases onward with
  | same => exact stored
  | starts o =>
    cases stored
    exact .sealing
  | ends o =>
    cases stored
    exact .returned

theorem Waits.onward (waits : Waits a) (onward : Onward a b) : b = a := by
  cases onward with
  | same => rfl
  | starts o => simp [Waits, CommitStage.between] at waits
  | ends o => simp [Waits, CommitStage.between] at waits

theorem Repeats.onward {r : Receipt} (repeats : Repeats r a) (onward : Onward a b) : b = a := by
  cases onward with
  | same => rfl
  | starts o => simp [Repeats] at repeats
  | ends o => simp [Repeats] at repeats

theorem OneDelivery.kept (known : OneDelivery key s)
    (receipt : t.catalog.receipts.get? key = s.catalog.receipts.get? key)
    (joined : t.joined.count key = s.joined.count key)
    (back : ∀ (j : Nat) (d : Commit), t.commits[j]? = some d → d.key = key → (s.commits[j]? = none ∧ d.stage = .begun) ∨
      ∃ c : Commit, s.commits[j]? = some c ∧ c.key = key ∧ Onward c.stage d.stage)
    (forth : ∀ (j : Nat) (c : Commit), s.commits[j]? = some c → c.key = key →
      ∃ d : Commit, t.commits[j]? = some d ∧ d.key = key ∧ d.rows = c.rows ∧ Onward c.stage d.stage) :
    OneDelivery key t := by
  cases known with
  | before absent none waits alone =>
    have same : ∀ (j : Nat) (d : Commit), t.commits[j]? = some d → d.key = key →
        d.stage = .begun ∨ ∃ c : Commit, s.commits[j]? = some c ∧ c.key = key ∧
          d.stage = c.stage := by
      intro j d found own
      rcases back j d found own with ⟨-, begun⟩ | ⟨c, here, held, onward⟩
      · exact .inl begun
      · exact .inr ⟨c, here, held, (waits j c here held).onward onward⟩
    refine .before (by rw [receipt, absent]) (by rw [joined, none]) ?_ ?_
    · intro j d found own
      rcases same j d found own with begun | ⟨c, here, held, stays⟩
      · exact .inl begun
      · rw [stays]
        exact waits j c here held
    · intro j k a b first second ownA ownB atFirst atSecond
      rcases same j a first ownA with begun | ⟨c, here, held, stays⟩
      · rw [begun] at atFirst; cases atFirst
      · rcases same k b second ownB with begun | ⟨d, there, held', stays'⟩
        · rw [begun] at atSecond; cases atSecond
        · exact alone j k c d here there held held' (stays ▸ atFirst) (stays' ▸ atSecond)
  | after r i c held here own stored others =>
    obtain ⟨d, found, ownD, rows, onward⟩ := forth i c here own
    refine .after r i d (by rw [receipt, held]) found ownD ?_ ?_
    · rw [joined, rows]
      exact stored.onward onward
    · intro j e other there ownE
      rcases back j e there ownE with ⟨-, begun⟩ | ⟨c', before, heldC, moved⟩
      · exact .inl begun
      · have repeats := others j c' other before heldC
        rw [repeats.onward moved]
        exact repeats

variable {c d : Commit} {m : Memory} {e : CallEvent}

theorem Called.same_key (called : Called node s m c e t d) : d.key = c.key := by
  cases called <;> rfl

variable {i : Nat}

theorem OneDelivery.call_other (known : OneDelivery key s) (here : s.commits[i]? = some c) (other : c.key ≠ key)
    (called : Called node s m c e t d) : OneDelivery key { t with commits := s.commits.set i d } := by
  have receipt : t.catalog.receipts.get? key = s.catalog.receipts.get? key := by
    cases called with
    | received committedAt watermark position stage =>
      rw [Catalog.commitReceipt, get?_insert, if_neg (fun same => other same.symm)]
    | _ => rfl
  have joined : t.joined.count key = s.joined.count key := by
    cases called with
    | extended now committedAt watermark position due stage =>
      rw [count_append, count_singleton, if_neg (by simpa using other)]
      rfl
    | _ => rfl
  refine known.kept receipt joined ?_ ?_
  · intro j e found own
    rcases getElem?_set_cases found with ⟨rfl, rfl⟩ | ⟨-, before⟩
    · rw [called.same_key] at own
      exact absurd own other
    · exact .inr ⟨e, before, own, .same _⟩
  · intro j e before own
    refine ⟨e, ?_, own, rfl, .same _⟩
    rw [getElem?_set_ne]
    · exact before
    · rintro rfl
      obtain rfl := Option.some.inj (here.symm.trans before)
      exact other own

theorem OneDelivery.waits_on (waits : ∀ (j : Nat) (c : Commit), s.commits[j]? = some c → c.key = key → Waits c.stage)
    (alone : ∀ (j k : Nat) (c d : Commit), s.commits[j]? = some c → s.commits[k]? = some d →
      c.key = key → d.key = key → c.stage.between = true → d.stage.between = true → j = k)
    (absent : t.catalog.receipts.get? key = none) (none : t.joined.count key = 0)
    (here : s.commits[i]? = some c) (own : c.key = key) (moved : Waits d.stage)
    (room : d.stage.between = true → c.stage.between = true ∨ ∀ e ∈ s.commits, e.key = key → e.stage.between = false) :
    OneDelivery key { t with commits := s.commits.set i d } := by
  refine .before absent none ?_ ?_
  · intro j e found same
    rcases getElem?_set_cases found with ⟨rfl, rfl⟩ | ⟨-, before⟩
    · exact moved
    · exact waits j e before same
  · have single : ∀ (j : Nat) (e : Commit), j ≠ i → s.commits[j]? = some e → e.key = key →
        d.stage.between = true → e.stage.between = false := by
      intro j e other before same between
      rcases room between with was | free
      · by_contra busy
        exact other (alone j i e c before here same own (by simpa using busy) was)
      · exact free e (mem_of_getElem? before) same
    intro j k a b first second ownA ownB atFirst atSecond
    rcases getElem?_set_cases first with ⟨rfl, rfl⟩ | ⟨otherJ, beforeA⟩
    · rcases getElem?_set_cases second with ⟨rfl, rfl⟩ | ⟨otherK, beforeB⟩
      · rfl
      · rw [single k b otherK beforeB ownB atFirst] at atSecond
        cases atSecond
    · rcases getElem?_set_cases second with ⟨rfl, rfl⟩ | ⟨otherK, beforeB⟩
      · rw [single j a otherJ beforeA ownA atSecond] at atFirst
        cases atFirst
      · exact alone j k a b beforeA beforeB ownA ownB atFirst atSecond

theorem OneDelivery.call_own (known : OneDelivery key s) (here : s.commits[i]? = some c) (own : c.key = key)
    (quiet : ∀ now, e = .lookup now → ∀ d ∈ s.commits, d.key = key → d.stage.between = false)
    (called : Called node s m c e t d) : OneDelivery key { t with commits := s.commits.set i d } := by
  have size : i < s.commits.length := (List.getElem?_eq_some_iff.mp here).1
  have receipt : s.catalog.receipt c.sourceId c.batchId = s.catalog.receipts.get? key := by
    rw [← own]
    rfl
  cases known with
  | before absent none waits alone =>
    have stage := waits i c here own
    cases called with
    | answered now prior begun found => rw [receipt, absent] at found; cases found
    | stamped now begun new =>
      exact .waits_on waits alone absent none here own (.inr (.inl rfl))
        fun _ => .inr (quiet now rfl)
    | refused message committedAt stamped =>
      exact .waits_on waits alone absent none here own (.inr (.inr ⟨_, rfl⟩)) (by rintro ⟨⟩)
    | numbered committedAt stamped =>
      exact @OneDelivery.waits_on s (s.running { m with watermark := m.watermark + 1 }) key c _ i
        waits alone absent none here own (.inr (.inl rfl)) fun _ => .inl (by rw [stamped]; rfl)
    | entered committedAt watermark wal numbered ran =>
      exact @OneDelivery.waits_on s (s.running { m with wal }) key c _ i
        waits alone absent none here own (.inr (.inl rfl)) fun _ => .inl (by rw [numbered]; rfl)
    | logged committedAt watermark frame position payload appending told =>
      exact .waits_on waits alone absent none here own (.inr (.inl rfl))
        fun _ => .inl (by rw [appending]; rfl)
    | unlogged committedAt watermark frame e appending =>
      exact .waits_on waits alone absent none here own (.inr (.inr ⟨_, rfl⟩)) (by rintro ⟨⟩)
    | unreceived message committedAt watermark position logged =>
      exact .waits_on waits alone absent none here own (.inr (.inr ⟨_, rfl⟩)) (by rintro ⟨⟩)
    | extended now committedAt watermark position due received =>
      rw [received] at stage
      simp [Waits, CommitStage.between] at stage
    | received committedAt watermark position logged =>
      refine .after ⟨c.sourceId, c.batchId, c.rows.length, committedAt, watermark, position⟩ i
        (c.goes (.received committedAt watermark position)) ?_ (getElem?_set_self size) own
        ?_ ?_
      · rw [Catalog.commitReceipt, get?_insert]
        exact if_pos own.symm
      · rw [none]
        exact .received position rfl
      · intro j e other found same
        rw [getElem?_set_ne (Ne.symm other)] at found
        rcases waits j e found same with begun | between | failed
        · exact .inl begun
        · exact absurd (alone j i e c found here same own between (by rw [logged]; rfl)) other
        · exact .inr (.inl failed)
  | after r k first held there ownFirst stored others =>
    by_cases same : i = k
    · subst same
      obtain rfl := Option.some.inj (here.symm.trans there)
      -- The call that stored the receipt has one stretch of its own left.
      cases called with
      | extended now committedAt watermark position due received =>
        rw [received] at stored
        generalize count : s.joined.count key = n at stored
        obtain ⟨position, all⟩ := stored
        have joined : (s.joined ++ [c.key]).count key = 1 := by
          rw [count_append, count, own]
          simp
        refine .after r i _ held (getElem?_set_self size) own ?_ ?_
        · rw [joined, all]
          cases due with
          | false => exact .returned
          | true => exact .due
        · intro j e other found ownE
          rw [getElem?_set_ne (Ne.symm other)] at found
          exact others j e other found ownE
      | answered now prior stage found => rw [stage] at stored; cases stored
      | stamped now stage new => rw [stage] at stored; cases stored
      | refused message committedAt stage => rw [stage] at stored; cases stored
      | numbered committedAt stage => rw [stage] at stored; cases stored
      | entered committedAt watermark wal stage ran => rw [stage] at stored; cases stored
      | logged committedAt watermark frame position payload stage told =>
        rw [stage] at stored; cases stored
      | unlogged committedAt watermark frame e stage => rw [stage] at stored; cases stored
      | received committedAt watermark position stage => rw [stage] at stored; cases stored
      | unreceived message committedAt watermark position stage =>
        rw [stage] at stored; cases stored
    · -- Any other call of the batch is answered from the receipt.
      have repeats := others i c same here own
      have answers : ∀ d : Commit, d.key = key → Repeats r d.stage →
          OneDelivery key { s with commits := s.commits.set i d } := by
        intro d ownD moved
        refine .after r k first held ?_ ownFirst stored ?_
        · rw [getElem?_set_ne same]
          exact there
        · intro j e other found ownE
          rcases getElem?_set_cases found with ⟨rfl, rfl⟩ | ⟨-, before⟩
          · exact moved
          · exact others j e other before ownE
      cases called with
      | answered now prior stage found =>
        rw [receipt, held] at found
        cases found
        exact answers _ own (.inr (.inr rfl))
      | stamped now stage new => rw [receipt, held] at new; cases new
      | refused message committedAt stage => simp [Repeats, stage] at repeats
      | numbered committedAt stage => simp [Repeats, stage] at repeats
      | entered committedAt watermark wal stage ran => simp [Repeats, stage] at repeats
      | logged committedAt watermark frame position payload stage told =>
        simp [Repeats, stage] at repeats
      | unlogged committedAt watermark frame e stage => simp [Repeats, stage] at repeats
      | received committedAt watermark position stage => simp [Repeats, stage] at repeats
      | unreceived message committedAt watermark position stage =>
        simp [Repeats, stage] at repeats
      | extended now committedAt watermark position due stage => simp [Repeats, stage] at repeats

theorem Commit.sealed_key (c : Commit) (result : Except StoreError (Option Id)) : (c.sealed result).key = c.key := by
  unfold Commit.sealed
  split <;> rfl

theorem Commit.Seals.onward {e : Event} (allowed : OneAtATime node key s e) (inside : c ∈ s.commits) (own : c.key = key)
    (seals : c.Seals (fun result => e.MayEnd node s result) d) :
    d.key = key ∧ d.rows = c.rows ∧ Onward c.stage d.stage := by
  cases seals with
  | same => exact ⟨own, rfl, .same _⟩
  | starts outcome due =>
    refine ⟨own, rfl, ?_⟩
    rw [due]
    exact .starts outcome
  | ends outcome result sealing may =>
    cases e with
    | sealing e =>
      obtain ⟨m, holder, up, turn, ends⟩ := may
      have fine : (∃ written, result = .ok written) ∨
          ∃ message, result = .error (.exhausted message) := by
        cases result with
        | ok written => exact .inl ⟨written, rfl⟩
        | error error =>
          refine .inr ?_
          rcases ends error rfl with ⟨message, rfl⟩ | failed
          · exact ⟨message, rfl⟩
          · simp only [OneAtATime, up, turn, failed] at allowed
            rcases allowed with full | nobody
            · cases error with
              | exhausted message => exact ⟨message, rfl⟩
              | _ => cases full
            · have := nobody c inside own
              rw [sealing] at this
              cases this
      rcases fine with ⟨written, rfl⟩ | ⟨message, rfl⟩
      · simp only [Commit.sealed, sealing]
        exact ⟨own, rfl, .ends outcome⟩
      · simp only [Commit.sealed, sealing]
        exact ⟨own, rfl, .ends outcome⟩
    | _ => exact may.elim

theorem OneDelivery.step {e : Event} (known : OneDelivery key s) (allowed : OneAtATime node key s e)
    (next : step node s e = some t) : OneDelivery key t := by
  have unchanged : ∀ t : State, t.catalog.receipts = s.catalog.receipts → t.joined = s.joined →
      t.commits = s.commits → OneDelivery key t := by
    intro t receipts joined commits
    refine known.kept (by rw [receipts]) (by rw [joined]) ?_ ?_
    · intro j d found own
      exact .inr ⟨d, commits ▸ found, own, .same _⟩
    · intro j c here own
      exact ⟨c, commits ▸ here, own, rfl, .same _⟩
  cases e with
  | openLog =>
    simp only [Segmented.step] at next
    split at next
    · cases next
      exact unchanged _ rfl rfl rfl
    · cases next
  | recordCheckpoint =>
    simp only [Segmented.step] at next
    split at next
    · cases next
      exact unchanged _ rfl rfl rfl
    · cases next
  | openWith now =>
    simp only [Segmented.step] at next
    split at next
    · obtain ⟨m, -, same⟩ := Option.bind_eq_some_iff.mp next
      cases same
      exact unchanged _ rfl rfl rfl
    · cases next
  | crash => exact allowed.elim
  | commit sourceId batchId rows =>
    obtain ⟨m, up, same⟩ := Option.bind_eq_some_iff.mp next
    cases same
    refine known.kept rfl rfl ?_ ?_
    · intro j d found own
      rcases getElem?_push_cases found with ⟨rfl, rfl⟩ | ⟨-, before⟩
      · exact .inl ⟨getElem?_eq_none (le_refl _), rfl⟩
      · exact .inr ⟨d, before, own, .same _⟩
    · intro j c here own
      refine ⟨c, ?_, own, rfl, .same _⟩
      rw [getElem?_append_left (List.getElem?_eq_some_iff.mp here).1]
      exact here
  | call i e =>
    obtain ⟨m, c, t', d, up, here, called, rfl⟩ := step_call next
    by_cases own : c.key = key
    · refine known.call_own here own ?_ called
      rintro now rfl
      simp only [OneAtATime, here] at allowed
      exact allowed own
    · exact known.call_other here own called
  | _ =>
    have so := step_aside rfl next
    refine known.kept (by rw [so.receipts]) (by rw [so.joined]) ?_ ?_
    · intro j d found own
      obtain ⟨c, here, seals⟩ := so.commits j d found
      have same : c.key = key := by
        cases seals with
        | same => exact own
        | starts outcome due => exact own
        | ends outcome result sealing may =>
          rwa [← Commit.sealed_key c result]
      exact .inr ⟨c, here, same, (seals.onward allowed (mem_of_getElem? here) same).2.2⟩
    · intro j c here own
      have size : j < t.commits.length := by
        rw [so.length]
        exact (List.getElem?_eq_some_iff.mp here).1
      obtain ⟨c', here', seals⟩ := so.commits j t.commits[j] (getElem?_eq_getElem size)
      obtain rfl := Option.some.inj (here.symm.trans here')
      exact ⟨_, getElem?_eq_getElem size, seals.onward allowed (mem_of_getElem? here) own⟩

end

/-- From a store that holds no receipt of the batch, in every state of a run whose steps
meet the condition, the calls for the batch are one logical commit. -/
theorem one_logical_commit {node : Node} {key : Id ×ₗ Id} {s t : State}
    (unknown : s.catalog.receipts.get? key = none) (unused : ∀ c ∈ s.commits, c.key ≠ key)
    (unjoined : key ∉ s.joined) (run : Reach (step node) (OneAtATime node key) s t) : OneLogicalCommit key t := by
  have start : OneDelivery key s := by
    refine .before unknown (List.count_eq_zero.mpr unjoined) ?_ ?_
    · intro i c here own
      exact absurd own (unused c (List.mem_of_getElem? here))
    · intro i j c d here _ own
      exact absurd own (unused c (List.mem_of_getElem? here))
  have known : OneDelivery key t :=
    Reach.invariant _ start (fun _ _ _ held allowed next => held.step allowed next) run
  exact known.one

/-- A retry that comes after the first delivery stored its receipt. -/
theorem one_logical_commit_retried :
    ∃ t : State, Reach (step plainNode) (OneAtATime plainNode (toLex (1, 1))) .empty t ∧ t.commits.map Commit.stage =
        [.returned (.ok ⟨1, 1, 1, false⟩), .returned (.ok ⟨1, 1, 1, true⟩)] ∧ OneLogicalCommit (toLex (1, 1)) t := by
  obtain ⟨t, run, told⟩ := @Reach.of_exec_any _ _ (step plainNode)
    (OneAtATime plainNode (toLex (1, 1))) _ .empty
    (.openWith 1 :: commitAlone 0 0 1 1 [EventRow.new 7 "event" "opened" 0] ++
      [.commit 1 1 [EventRow.new 7 "event" "opened" 0], .call 1 (.lookup 9)])
    (fun t => t.commits.map Commit.stage =
      [.returned (.ok ⟨1, 1, 1, false⟩), .returned (.ok ⟨1, 1, 1, true⟩)]) (by decide +kernel)
  exact ⟨t, run, by simpa using told, one_logical_commit rfl (by simp [State.empty])
    (by simp [State.empty]) run⟩

def ProcessLives (_ : State) : Event → Prop
  | .crash => False
  | _ => True

instance (s : State) (e : Event) : Decidable (ProcessLives s e) := by
  unfold ProcessLives
  split <;> infer_instance

/-- Two deliveries of one batch that both look before either has stored a receipt. -/
theorem one_batch_commits_twice : ∃ t : State, Reach (step plainNode) ProcessLives .empty t ∧
      t.commits.map Commit.key = [toLex (1, 1), toLex (1, 1)] ∧ t.commits.map Commit.stage =
        [.returned (.ok ⟨1, 1, 1, false⟩), .returned (.ok ⟨1, 1, 2, false⟩)] ∧
      t.joined = [toLex (1, 1), toLex (1, 1)] ∧ ¬ OneLogicalCommit (toLex (1, 1)) t := by
  obtain ⟨t, run, told⟩ := @Reach.of_exec_any _ _ (step plainNode) ProcessLives _ .empty
    [.openWith 1, .commit 1 1 [EventRow.new 7 "event" "opened" 0],
      .commit 1 1 [EventRow.new 7 "event" "opened" 0], .call 0 (.lookup 1), .call 1 (.lookup 1),
      .call 0 .allocate, .call 0 .append, .log (.written 0), .call 0 .appended, .call 0 .receipt,
      .call 0 (.extend 1), .call 1 .allocate, .call 1 .append, .log (.written 1),
      .call 1 .appended, .call 1 .receipt, .call 1 (.extend 1)]
    (fun t => t.commits.map Commit.key = [toLex (1, 1), toLex (1, 1)] ∧
      t.commits.map Commit.stage =
        [.returned (.ok ⟨1, 1, 1, false⟩), .returned (.ok ⟨1, 1, 2, false⟩)] ∧
      t.joined = [toLex (1, 1), toLex (1, 1)]) (by decide +kernel)
  obtain ⟨keys, stages, joined⟩ : t.commits.map Commit.key = [toLex (1, 1), toLex (1, 1)] ∧
      t.commits.map Commit.stage =
        [.returned (.ok ⟨1, 1, 1, false⟩), .returned (.ok ⟨1, 1, 2, false⟩)] ∧
      t.joined = [toLex (1, 1), toLex (1, 1)] := by simpa using told
  refine ⟨t, run, keys, stages, joined, fun one => ?_⟩
  have := one.once
  rw [joined] at this
  simp at this

end TallyOwl.Segmented
