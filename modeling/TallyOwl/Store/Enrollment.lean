import TallyOwl.Store.RoleToken

/-! Enrollments on one role token (`identity.rs`). A claim and a release are one transaction
each over the stored record. A release lowers the counter of the current hour, whichever
hour its claim was counted in. -/
open List

namespace TallyOwl.Identity
open Lib Cbor Locate RowCodec
open Totals (CatalogError)

/-- The length of the window `enrollments_each_hour` counts over. -/
def rateWindowMs : Int := 3600000

inductive AuthFailure where
  | unknown | revoked
  deriving DecidableEq

inductive EnrollmentRefusal where
  | credential (failure : AuthFailure)
  | usesExhausted
  | rateLimited
  deriving DecidableEq

def wrapU64 (n : Nat) : Nat := n % 2 ^ 64

def RoleToken.windowOver (token : RoleToken) (now : Int) : Bool :=
  decide (wrapI64 (now - token.windowStartedAt) ≥ rateWindowMs) || decide (now < token.windowStartedAt)

def RoleToken.rolled (token : RoleToken) (now : Int) : RoleToken :=
  if token.windowOver now then { token with windowStartedAt := now, windowUses := 0 } else token

def RoleToken.take (token : RoleToken) (now : Int) : RoleToken :=
  { token with
    uses := wrapU64 (token.uses + 1)
    windowUses := wrapU64 (token.windowUses + 1)
    lastUsedAt := some now }

def RoleToken.giveBack (token : RoleToken) : RoleToken :=
  { token with uses := token.uses - 1, windowUses := token.windowUses - 1 }

def reached (limit : Option Nat) (n : Nat) : Bool := limit.any fun most => decide (n ≥ most)

def RoleToken.claim (token : RoleToken) (now : Int) : Except EnrollmentRefusal RoleToken :=
  if token.isActive now = false then .error (.credential .revoked)
  else if reached token.policy.maxUses token.uses then .error .usesExhausted
  else
    let token := token.rolled now
    if reached token.policy.enrollmentsEachHour token.windowUses then .error .rateLimited
    else .ok (token.take now)

/-- `claim_token_use`: the answer, and the record the transaction leaves. -/
def claimTokenUse (tokenId : String) (now : Int) (record : Option Bytes) :
    Except CatalogError (Except EnrollmentRefusal Unit × Option Bytes) :=
  match record with
  | none => .ok (.error (.credential .unknown), record)
  | some bytes =>
      match readToken tokenId bytes with
      | .error e => .error e
      | .ok token =>
          match token.claim now with
          | .error refusal => .ok (.error refusal, record)
          | .ok taken => .ok (.ok (), some (encode (encodeToken taken)))

/-- `release_token_use`: the record the transaction leaves. -/
def releaseTokenUse (tokenId : String) (record : Option Bytes) : Except CatalogError (Option Bytes) :=
  match record with
  | none => .ok record
  | some bytes =>
      match readToken tokenId bytes with
      | .error e => .error e
      | .ok token => .ok (some (encode (encodeToken token.giveBack)))

abbrev Moment := { n : Int // InI64 n }

/-- The record of one token, the claims on it that were not released, each by the window it
was counted in, and how many windows were opened. -/
structure Enrolling where
  record : Option Bytes
  claims : List Nat
  window : Nat
  deriving DecidableEq

inductive EnrollEvent where
  | claim (now : Moment)
  | release (place : Nat)

section
variable (tokenId : String)

def stored (record : Option Bytes) : Option RoleToken :=
  record.bind fun bytes => (readToken tokenId bytes).toOption

def opensWindow (record : Option Bytes) (now : Int) : Bool :=
  (stored tokenId record).any fun token => token.windowOver now

namespace Enrolling

def start (token : RoleToken) : Enrolling := ⟨some (encode (encodeToken token)), [], 0⟩

def enroll (s : Enrolling) : EnrollEvent → Option Enrolling
  | .claim now =>
      match claimTokenUse tokenId now s.record with
      | .ok (.ok (), record) =>
          let window := if opensWindow tokenId s.record now then s.window + 1 else s.window
          some ⟨record, s.claims ++ [window], window⟩
      | .ok (.error _, record) => some { s with record }
      | .error _ => some s
  | .release place =>
      if place < s.claims.length then
        match releaseTokenUse tokenId s.record with
        | .ok record => some { s with record, claims := s.claims.eraseIdx place }
        | .error _ => some s
      else none

/-- A claim is given back in the window that counted it, or once the counter of the current
window is at zero, or where no rate counts. -/
def InItsWindow (s : Enrolling) : EnrollEvent → Prop
  | .claim _ => True
  | .release place => s.claims[place]? = some s.window ∨
      ∀ token ∈ stored tokenId s.record,
        token.windowUses = 0 ∨ token.policy.enrollmentsEachHour = none

instance (s : Enrolling) (event : EnrollEvent) : Decidable (s.InItsWindow tokenId event) :=
  match event with
  | .claim _ => inferInstanceAs (Decidable True)
  | .release _ => inferInstanceAs (Decidable (_ ∨ _))

end Enrolling
end

/-- The limits of a policy, over the claims that were not released. -/
structure Limited (policy : RoleTokenPolicy) (s : Enrolling) : Prop where
  uses : ∀ most, policy.maxUses = some most → s.claims.length ≤ most
  rate : ∀ most, policy.enrollmentsEachHour = some most → ∀ window, s.claims.count window ≤ most

/-- The limits that a run is about are numbers that an `i64` has too. -/
def RoleTokenPolicy.Kept (policy : RoleTokenPolicy) : Prop :=
  (∀ n ∈ policy.maxUses, n < 2 ^ 63) ∧ ∀ n ∈ policy.enrollmentsEachHour, n < 2 ^ 63

section
variable {token : RoleToken}

theorem TokenFits.kept (fits : TokenFits token) : TokenFits (kept token) := by
  have count : ∀ n, n < 2 ^ 64 → keptCount n < 2 ^ 64 := by
    intro n small
    unfold keptCount
    split <;> omega
  have limit : ∀ limit : Option Nat, (∀ n, limit = some n → n < 2 ^ 64) →
      ∀ n, keptLimit limit = some n → n < 2 ^ 64 := by
    intro limit small n there
    exact small n (Option.filter_eq_some_iff.mp there).1
  exact { fits with
    uses := count _ fits.uses
    windowUses := count _ fits.windowUses
    maxUses := limit _ fits.maxUses
    maxActiveNodes := limit _ fits.maxActiveNodes
    enrollmentsEachHour := limit _ fits.enrollmentsEachHour }

theorem TokenFits.rolled (fits : TokenFits token) (now : Moment) : TokenFits (token.rolled now) := by
  unfold RoleToken.rolled
  split
  · exact { fits with windowStartedAt := now.property, windowUses := Nat.two_pow_pos 64 }
  · exact fits

theorem TokenFits.take (fits : TokenFits token) (now : Moment) : TokenFits (token.take now) := by
  have count : ∀ n, wrapU64 n < 2 ^ 64 := fun n => Nat.mod_lt n (Nat.two_pow_pos 64)
  have used : ∀ n, (token.take now).lastUsedAt = some n → InI64 n := by
    intro n there
    obtain rfl : now.val = n := Option.some.inj there
    exact now.property
  exact { fits with uses := count _, windowUses := count _, lastUsedAt := used }

theorem TokenFits.giveBack (fits : TokenFits token) : TokenFits token.giveBack :=
  { fits with
    uses := (Nat.sub_le _ 1).trans_lt fits.uses
    windowUses := (Nat.sub_le _ 1).trans_lt fits.windowUses }

theorem keptCount_lt (n : Nat) : keptCount n < 2 ^ 63 := by
  unfold keptCount
  split <;> omega

theorem keptCount_wrap {n most : Nat} (below : n < most) (small : most < 2 ^ 63) :
    keptCount (wrapU64 (n + 1)) = n + 1 := by
  unfold wrapU64
  rw [Nat.mod_eq_of_lt (by omega), (keptCount_eq_self _).mpr (by omega)]

@[simp] theorem rolled_policy (now : Int) : (token.rolled now).policy = token.policy := by
  unfold RoleToken.rolled
  split <;> rfl

@[simp] theorem rolled_uses (now : Int) : (token.rolled now).uses = token.uses := by
  unfold RoleToken.rolled
  split <;> rfl

@[simp] theorem rolled_tokenId (now : Int) : (token.rolled now).tokenId = token.tokenId := by
  unfold RoleToken.rolled
  split <;> rfl

theorem stored_encode (fits : TokenFits token) :
    stored token.tokenId (some (encode (encodeToken token))) = some (kept token) := by
  rw [stored, Option.bind_some, readToken_encode fits]
  rfl

end

section
variable {tokenId : String} {policy : RoleTokenPolicy} {s t : Enrolling} {token : RoleToken}

/-- What is stored counts at least the claims that were not released, all of them and those
of its window. -/
structure Counted (tokenId : String) (policy : RoleTokenPolicy) (s : Enrolling) (token : RoleToken) :
    Prop where
  stored : stored tokenId s.record = some token
  fits : TokenFits token
  tokenId : token.tokenId = tokenId
  maxUses : token.policy.maxUses = policy.maxUses
  rate : token.policy.enrollmentsEachHour = policy.enrollmentsEachHour
  uses : policy.maxUses ≠ none → s.claims.length ≤ token.uses
  windowUses : policy.enrollmentsEachHour ≠ none → s.claims.count s.window ≤ token.windowUses
  small : token.uses < 2 ^ 63 ∧ token.windowUses < 2 ^ 63
  windows : ∀ window ∈ s.claims, window ≤ s.window
  limited : Limited policy s

theorem claim_cases {now : Int} {taken : RoleToken} (granted : token.claim now = .ok taken) :
    taken = (token.rolled now).take now ∧ (∀ most, token.policy.maxUses = some most → token.uses < most) ∧
      ∀ most, token.policy.enrollmentsEachHour = some most → (token.rolled now).windowUses < most := by
  unfold RoleToken.claim at granted
  split at granted
  · cases granted
  · split at granted
    · cases granted
    · rename_i unspent
      dsimp only at granted
      split at granted
      · cases granted
      · rename_i room
        refine ⟨(Except.ok.inj granted).symm, ?_, ?_⟩
        · intro most limit
          simpa [reached, limit] using unspent
        · intro most limit
          simpa [reached, limit] using room

theorem readToken_of_stored {record : Option Bytes} (held : stored tokenId record = some token) :
    ∃ bytes, record = some bytes ∧ readToken tokenId bytes = .ok token := by
  obtain ⟨bytes, rfl, read⟩ := Option.bind_eq_some_iff.mp held
  refine ⟨bytes, rfl, ?_⟩
  cases outcome : readToken tokenId bytes with
  | error e =>
    rw [outcome] at read
    cases read
  | ok found =>
    rw [outcome] at read
    rw [Option.some.inj read]

theorem claimTokenUse_cases {now : Int} {record after : Option Bytes}
    {answer : Except EnrollmentRefusal Unit} (held : stored tokenId record = some token)
    (ran : claimTokenUse tokenId now record = .ok (answer, after)) :
    (∃ refusal, answer = .error refusal ∧ after = record) ∨ answer = .ok () ∧ ∃ taken, token.claim now = .ok taken ∧
        after = some (encode (encodeToken taken)) := by
  obtain ⟨bytes, rfl, read⟩ := readToken_of_stored held
  simp only [claimTokenUse, read] at ran
  cases decision : token.claim now with
  | error refusal =>
    rw [decision] at ran
    cases ran
    exact .inl ⟨refusal, rfl, rfl⟩
  | ok taken =>
    rw [decision] at ran
    cases ran
    exact .inr ⟨rfl, taken, rfl, rfl⟩

theorem kept_take_uses {now : Int} {most : Nat} (limit : policy.maxUses = some most)
    (same : token.policy.maxUses = policy.maxUses) (small : most < 2 ^ 63)
    (below : ∀ most, token.policy.maxUses = some most → token.uses < most) :
    (kept ((token.rolled now).take now)).uses = token.uses + 1 := by
  have used := below most (same.trans limit)
  simp only [kept, RoleToken.take, rolled_uses]
  exact keptCount_wrap used small

theorem Counted.granted (counted : Counted tokenId policy s token) (small : policy.Kept)
    {now : Moment} (spare : ∀ most, token.policy.maxUses = some most → token.uses < most)
    (room : ∀ most, token.policy.enrollmentsEachHour = some most → (token.rolled now).windowUses < most)
    {window : Nat} (opened : window = if token.windowOver now then s.window + 1 else s.window) :
    Counted tokenId policy ⟨some (encode (encodeToken ((token.rolled now).take now))),
      s.claims ++ [window], window⟩ (kept ((token.rolled now).take now)) := by
  have fits : TokenFits ((token.rolled now).take now) := (counted.fits.rolled now).take now
  have named : ((token.rolled now).take now).tokenId = tokenId :=
    (@rolled_tokenId token now).trans counted.tokenId
  have later : s.window ≤ window := by
    rw [opened]
    split <;> omega
  -- A window that was just opened holds no claim yet.
  have before : ∀ most, policy.enrollmentsEachHour = some most →
      s.claims.count window ≤ (token.rolled now).windowUses := by
    intro most limit
    rw [opened]
    unfold RoleToken.rolled
    split
    · have fresh : s.window + 1 ∉ s.claims := fun there => by
        have past := counted.windows _ there
        omega
      exact (count_eq_zero_of_not_mem fresh).le
    · exact counted.windowUses (by simp [limit])
  have keptLimits : (kept ((token.rolled now).take now)).policy.maxUses = policy.maxUses ∧
      (kept ((token.rolled now).take now)).policy.enrollmentsEachHour = policy.enrollmentsEachHour := by
    simp only [kept, RoleToken.take, rolled_policy, counted.maxUses, counted.rate]
    exact ⟨(keptLimit_eq_self _).mpr small.1, (keptLimit_eq_self _).mpr small.2⟩
  have counts : ∀ most, policy.enrollmentsEachHour = some most →
      (kept ((token.rolled now).take now)).windowUses = (token.rolled now).windowUses + 1 := by
    intro most limit
    exact keptCount_wrap (room most (counted.rate.trans limit)) (small.2 most limit)
  exact {
    stored := by
      have read := stored_encode fits
      rwa [named] at read
    fits := fits.kept
    tokenId := named
    maxUses := keptLimits.1
    rate := keptLimits.2
    uses := by
      intro limited
      obtain ⟨most, limit⟩ := Option.ne_none_iff_exists'.mp limited
      rw [kept_take_uses limit counted.maxUses (small.1 most limit) spare, length_append]
      exact Nat.succ_le_succ (counted.uses limited)
    windowUses := by
      intro limited
      obtain ⟨most, limit⟩ := Option.ne_none_iff_exists'.mp limited
      rw [counts most limit, count_append, count_singleton_self]
      exact Nat.succ_le_succ (before most limit)
    small := ⟨keptCount_lt _, keptCount_lt _⟩
    windows := by
      intro other there
      rcases mem_append.mp there with old | new
      · exact (counted.windows other old).trans later
      · exact (mem_singleton.mp new).le
    limited := by
      constructor
      · intro most limit
        have used := spare most (counted.maxUses.trans limit)
        have held := counted.uses (by simp [limit])
        rw [length_append]
        exact Nat.succ_le_of_lt (held.trans_lt used)
      · intro most limit other
        rw [count_append]
        by_cases same : other = window
        · rw [same, count_singleton_self]
          exact Nat.succ_le_of_lt ((before most limit).trans_lt (room most (counted.rate.trans limit)))
        · have none : [window].count other = 0 :=
            count_eq_zero_of_not_mem fun there => same (mem_singleton.mp there)
          rw [none]
          exact counted.limited.rate most limit other }

theorem Counted.released (counted : Counted tokenId policy s token) (small : policy.Kept)
    {place : Nat} (inside : place < s.claims.length)
    (there : s.claims[place]? = some s.window ∨ token.windowUses = 0 ∨
      token.policy.enrollmentsEachHour = none) :
    Counted tokenId policy { s with
      record := some (encode (encodeToken token.giveBack)), claims := s.claims.eraseIdx place }
      (kept token.giveBack) := by
  have fits := counted.fits.giveBack
  have named : token.giveBack.tokenId = tokenId := counted.tokenId
  have removed : s.claims.Perm (s.claims[place] :: s.claims.eraseIdx place) :=
    (getElem_cons_eraseIdx_perm inside).symm
  have fewer : (s.claims.eraseIdx place).length + 1 = s.claims.length := removed.length_eq.symm
  have within : ∀ window, (s.claims.eraseIdx place).count window ≤ s.claims.count window :=
    fun window => (eraseIdx_sublist _ _).count_le window
  have stays : ∀ n, n < 2 ^ 63 → keptCount (n - 1) = n - 1 :=
    fun n bound => (keptCount_eq_self _).mpr ((Nat.sub_le n 1).trans_lt bound)
  have uses : (kept token.giveBack).uses = token.uses - 1 := stays _ counted.small.1
  have windowUses : (kept token.giveBack).windowUses = token.windowUses - 1 :=
    stays _ counted.small.2
  have current : policy.enrollmentsEachHour ≠ none →
      (s.claims.eraseIdx place).count s.window ≤ token.windowUses - 1 := by
    intro limited
    have before := counted.windowUses limited
    rcases there with own | spent | free
    · have item : s.claims[place] = s.window := (List.getElem?_eq_some_iff.mp own).2
      have one := removed.count_eq s.window
      rw [item, count_cons_self] at one
      omega
    · have less := within s.window
      omega
    · exact (limited (counted.rate.symm.trans free)).elim
  exact {
    stored := by
      have read := stored_encode fits
      rwa [named] at read
    fits := fits.kept
    tokenId := named
    maxUses := by
      rw [← counted.maxUses]
      exact (keptLimit_eq_self _).mpr (counted.maxUses ▸ small.1)
    rate := by
      rw [← counted.rate]
      exact (keptLimit_eq_self _).mpr (counted.rate ▸ small.2)
    uses := by
      intro limited
      have before := counted.uses limited
      rw [uses]
      exact Nat.le_sub_of_add_le (fewer.le.trans before)
    windowUses := by
      intro limited
      rw [windowUses]
      exact current limited
    small := ⟨keptCount_lt _, keptCount_lt _⟩
    windows := fun window held => counted.windows window (mem_of_mem_eraseIdx held)
    limited := ⟨fun most limit => (length_eraseIdx_le _ _).trans (counted.limited.uses most limit),
      fun most limit window => (within window).trans (counted.limited.rate most limit window)⟩ }

theorem Counted.enroll (counted : Counted tokenId policy s token) (small : policy.Kept)
    {event : EnrollEvent} (fair : s.InItsWindow tokenId event)
    (next : s.enroll tokenId event = some t) : ∃ token, Counted tokenId policy t token := by
  cases event with
  | claim now =>
    simp only [Enrolling.enroll] at next
    split at next
    · rename_i after ran
      cases next
      rcases claimTokenUse_cases counted.stored ran with ⟨refusal, refused, -⟩ | ⟨-, taken, decision, rfl⟩
      · cases refused
      · obtain ⟨rfl, spare, room⟩ := claim_cases decision
        refine ⟨_, counted.granted small spare room ?_⟩
        rw [opensWindow, counted.stored, Option.any_some]
    · rename_i refusal after ran
      cases next
      rcases claimTokenUse_cases counted.stored ran with ⟨-, -, rfl⟩ | ⟨granted, -⟩
      · exact ⟨token, counted⟩
      · cases granted
    · cases next
      exact ⟨token, counted⟩
  | release place =>
    simp only [Enrolling.enroll] at next
    split at next
    · rename_i inside
      obtain ⟨bytes, record, read⟩ := readToken_of_stored counted.stored
      simp only [record, releaseTokenUse, read] at next
      cases next
      exact ⟨_, counted.released small inside (fair.imp_right fun all => all token counted.stored)⟩
    · cases next

theorem Counted.start (fits : TokenFits token) (small : token.policy.Kept) :
    Counted token.tokenId token.policy (Enrolling.start token) (kept token) := by
  exact {
    stored := stored_encode fits
    fits := fits.kept
    tokenId := rfl
    maxUses := (keptLimit_eq_self _).mpr small.1
    rate := (keptLimit_eq_self _).mpr small.2
    uses := fun _ => Nat.zero_le _
    windowUses := fun _ => Nat.zero_le _
    small := ⟨keptCount_lt _, keptCount_lt _⟩
    windows := fun _ there => (not_mem_nil there).elim
    limited := ⟨fun _ _ => Nat.zero_le _, fun _ _ _ => Nat.zero_le _⟩ }

/-- Whatever is claimed and given back, the limits of a token hold, as long as each claim is
given back in the window that counted it. -/
theorem enrollment_limits_hold (fits : TokenFits token) (small : token.policy.Kept)
    (run : Reach (Enrolling.enroll token.tokenId) (Enrolling.InItsWindow token.tokenId)
      (Enrolling.start token) s) : Limited token.policy s := by
  obtain ⟨held, counted⟩ := run.invariant
    (fun s => ∃ held, Counted token.tokenId token.policy s held) ⟨_, Counted.start fits small⟩
    fun s event t holds fair next => by
      obtain ⟨held, counted⟩ := holds
      exact counted.enroll small fair next
  exact counted.limited

end

def hourlyToken : RoleToken where
  tokenId := "0a1b"
  digest := Digest.zero
  label := "pods"
  policy := { roles := [.collectorIntake], enrollmentsEachHour := some 1 }
  createdAt := 0
  revokedAt := none
  lastUsedAt := none
  uses := 0
  windowStartedAt := 0
  windowUses := 0

theorem hourlyToken_fits : TokenFits hourlyToken := by
  constructor <;> decide

theorem hourlyToken_kept : hourlyToken.policy.Kept :=
  ⟨fun _ limit => (by cases limit), fun _ limit => by cases limit; decide⟩

/-- A claim in each of two hours, where the second is given back and taken again. -/
def takenAgain : List EnrollEvent :=
  [.claim ⟨3600000, by decide⟩, .claim ⟨7200000, by decide⟩, .release 1, .claim ⟨7200001, by decide⟩]

theorem enrollment_limits_hold_taken_again :
    ∃ s, Reach (Enrolling.enroll hourlyToken.tokenId) (Enrolling.InItsWindow hourlyToken.tokenId)
        (Enrolling.start hourlyToken) s ∧ s.claims = [1, 2] ∧ Limited hourlyToken.policy s := by
  have ran : (exec (guarded (Enrolling.enroll hourlyToken.tokenId)
      (Enrolling.InItsWindow hourlyToken.tokenId)) (Enrolling.start hourlyToken) takenAgain).any
        (fun s => s.claims = [1, 2]) = true := by
    decide +kernel
  obtain ⟨s, run, claims⟩ := Reach.of_exec_any ran
  exact ⟨s, run, of_decide_eq_true claims,
    enrollment_limits_hold hourlyToken_fits hourlyToken_kept run⟩

def lateRelease : List EnrollEvent :=
  [.claim ⟨3600000, by decide⟩, .claim ⟨7200000, by decide⟩, .release 0, .claim ⟨7200001, by decide⟩]

/-- The second hour counts two claims of a token that may make one. -/
theorem late_release_exceeds_rate :
    ∃ s, exec (Enrolling.enroll hourlyToken.tokenId) (Enrolling.start hourlyToken) lateRelease = some s ∧
      s.claims = [2, 2] ∧ ¬Limited hourlyToken.policy s := by
  have ran : (exec (Enrolling.enroll hourlyToken.tokenId) (Enrolling.start hourlyToken) lateRelease).any
      (fun s => s.claims = [2, 2]) = true := by
    decide +kernel
  obtain ⟨s, last, held⟩ := (Option.any_eq_true _ _).mp ran
  have claims : s.claims = [2, 2] := of_decide_eq_true held
  refine ⟨s, last, claims, fun limited => ?_⟩
  have most := limited.rate 1 rfl 2
  rw [claims] at most
  exact absurd most (by decide)

end TallyOwl.Identity
