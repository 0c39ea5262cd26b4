import TallyOwl.Store.RowCodec
import TallyOwl.Store.Totals

/-! One role token as the control catalog stores it (`identity.rs`). A limit is written as
an unsigned number and read back through the signed accessor, which has no answer from
2^63 on. -/
open List

namespace TallyOwl.Identity
open Lib Cbor Locate RowCodec
open Totals (CatalogError)

inductive NodeRole where
  | collectorIntake | collectorForwarder | compatibilityReceiver | ingestGateway
  | queryCoordinator | projector | workflowWorker | readReplica | exportReplica | storageProcess
  deriving DecidableEq

namespace NodeRole

def asStr : NodeRole → String
  | collectorIntake => "collector-intake"
  | collectorForwarder => "collector-forwarder"
  | compatibilityReceiver => "compatibility-receiver"
  | ingestGateway => "ingest-gateway"
  | queryCoordinator => "query-coordinator"
  | projector => "projector"
  | workflowWorker => "workflow-worker"
  | readReplica => "read-replica"
  | exportReplica => "export-replica"
  | storageProcess => "storage-process"

def parse : String → Option NodeRole
  | "collector-intake" => some collectorIntake
  | "collector-forwarder" => some collectorForwarder
  | "compatibility-receiver" => some compatibilityReceiver
  | "ingest-gateway" => some ingestGateway
  | "query-coordinator" => some queryCoordinator
  | "projector" => some projector
  | "workflow-worker" => some workflowWorker
  | "read-replica" => some readReplica
  | "export-replica" => some exportReplica
  | "storage-process" => some storageProcess
  | _ => none

@[simp] theorem parse_asStr (role : NodeRole) : parse role.asStr = some role := by
  cases role <;> rfl

theorem fits_asStr (role : NodeRole) : TextFits role.asStr := by
  cases role <;> decide

end NodeRole

/-- What a role token permits. An empty list does not restrict, and an absent limit is the
installation's default. -/
structure RoleTokenPolicy where
  roles : List NodeRole := []
  cells : List String := []
  regions : List String := []
  workspaces : List Id := []
  projects : List Id := []
  expiresAt : Option Int := none
  maxUses : Option Nat := none
  maxActiveNodes : Option Nat := none
  certificateLifetimeMs : Option Int := none
  enrollmentsEachHour : Option Nat := none
  auditLabels : List String := []
  deriving DecidableEq

abbrev Digest := { bytes : Bytes // bytes.length = 32 }

def Digest.zero : Digest := ⟨List.replicate 32 0, by decide⟩

structure RoleToken where
  tokenId : String
  digest : Digest
  label : String
  policy : RoleTokenPolicy
  createdAt : Int
  revokedAt : Option Int
  lastUsedAt : Option Int
  uses : Nat
  windowStartedAt : Int
  windowUses : Nat
  deriving DecidableEq

/-- Whether this token can enroll anything at `now`. -/
def RoleToken.isActive (token : RoleToken) (now : Int) : Bool :=
  token.revokedAt.isNone && token.policy.expiresAt.all fun limit => decide (now < limit)

def textList (values : List String) : Value := .array (values.map .text)

def idList (values : List Id) : Value := .array (values.map fun id => .bytes id.bytes)

def tokenFields (token : RoleToken) : MapBuilder :=
  (∅ : MapBuilder)
    |>.put "digest" (.bytes token.digest.val)
    |>.put "label" (.text token.label)
    |>.put "created" (.integer token.createdAt)
    |>.put "uses" (.unsigned token.uses)
    |>.putSome "revoked" (token.revokedAt.map .integer)
    |>.putSome "used" (token.lastUsedAt.map .integer)
    |>.put "roles" (.array (token.policy.roles.map fun role => .text role.asStr))
    |>.put "cells" (textList token.policy.cells)
    |>.put "regions" (textList token.policy.regions)
    |>.put "workspaces" (idList token.policy.workspaces)
    |>.put "projects" (idList token.policy.projects)
    |>.put "labels" (textList token.policy.auditLabels)
    |>.putSome "expires" (token.policy.expiresAt.map .integer)
    |>.putSome "maxUses" (token.policy.maxUses.map .unsigned)
    |>.putSome "maxNodes" (token.policy.maxActiveNodes.map .unsigned)
    |>.putSome "certLife" (token.policy.certificateLifetimeMs.map .integer)
    |>.putSome "rate" (token.policy.enrollmentsEachHour.map .unsigned)
    |>.put "windowStart" (.integer token.windowStartedAt)
    |>.put "windowUses" (.unsigned token.windowUses)

def encodeToken (token : RoleToken) : Value := (tokenFields token).build

/-- `as u64` of a signed number. -/
def asU64 (n : Int) : Nat := (n % 2 ^ 64).toNat

def optionalInteger (value : Value) (name : String) : Option Int :=
  (value.field name).bind Value.asInteger

def integerField (value : Value) (name : String) : Int := (optionalInteger value name).getD 0

def readTextList (value : Value) (name : String) : List String :=
  (((value.field name).bind Value.asArray).map fun items => items.filterMap Value.asText).getD []

def idOfBytes (bytes : Bytes) : Option Id := if bytes.length = 16 then some (Id.ofBytes bytes) else none

def readIdList (value : Value) (name : String) : List Id :=
  (((value.field name).bind Value.asArray).map fun items =>
    (items.filterMap Value.asBytes).filterMap idOfBytes).getD []

def readDigest (value : Value) : Digest :=
  match (value.field "digest").bind Value.asBytes with
  | some bytes => if whole : bytes.length = 32 then ⟨bytes, whole⟩ else Digest.zero
  | none => Digest.zero

def decodeToken (tokenId : String) (value : Value) : RoleToken where
  tokenId := tokenId
  digest := readDigest value
  label := (textField value "label").getD ""
  createdAt := integerField value "created"
  revokedAt := optionalInteger value "revoked"
  lastUsedAt := optionalInteger value "used"
  uses := (max (integerField value "uses") 0).toNat
  windowStartedAt := integerField value "windowStart"
  windowUses := (max (integerField value "windowUses") 0).toNat
  policy := {
    roles := (readTextList value "roles").filterMap NodeRole.parse
    cells := readTextList value "cells"
    regions := readTextList value "regions"
    workspaces := readIdList value "workspaces"
    projects := readIdList value "projects"
    auditLabels := readTextList value "labels"
    expiresAt := optionalInteger value "expires"
    maxUses := (optionalInteger value "maxUses").map asU64
    maxActiveNodes := (optionalInteger value "maxNodes").map asU64
    certificateLifetimeMs := optionalInteger value "certLife"
    enrollmentsEachHour := (optionalInteger value "rate").map asU64 }

/-- `decode_value`: one control record. -/
def decodeValue (bytes : Bytes) : Except CatalogError Value :=
  match decode bytes with
  | .ok value => .ok value
  | .error e => .error (.damaged s!"A control record could not be read: {e.display}")

def readToken (tokenId : String) (bytes : Bytes) : Except CatalogError RoleToken :=
  (decodeValue bytes).map (decodeToken tokenId)

def keptCount (n : Nat) : Nat := if n < 2 ^ 63 then n else 0

def keptLimit (limit : Option Nat) : Option Nat := limit.filter fun n => n < 2 ^ 63

def kept (token : RoleToken) : RoleToken :=
  { token with
    uses := keptCount token.uses
    windowUses := keptCount token.windowUses
    policy := { token.policy with
      maxUses := keptLimit token.policy.maxUses
      maxActiveNodes := keptLimit token.policy.maxActiveNodes
      enrollmentsEachHour := keptLimit token.policy.enrollmentsEachHour } }

/-- Every limit and count of a token is a number that an `i64` has too. -/
def SignedLimits (token : RoleToken) : Prop :=
  token.uses < 2 ^ 63 ∧ token.windowUses < 2 ^ 63 ∧
    (∀ n ∈ token.policy.maxUses, n < 2 ^ 63) ∧
    (∀ n ∈ token.policy.maxActiveNodes, n < 2 ^ 63) ∧
    ∀ n ∈ token.policy.enrollmentsEachHour, n < 2 ^ 63

def TextsFit (texts : List String) : Prop := texts.length < 2 ^ 64 ∧ ∀ text ∈ texts, TextFits text

instance (texts : List String) : Decidable (TextsFit texts) := inferInstanceAs (Decidable (_ ∧ _))

structure TokenFits (token : RoleToken) : Prop where
  label : TextFits token.label
  createdAt : InI64 token.createdAt
  revokedAt : ∀ n, token.revokedAt = some n → InI64 n
  lastUsedAt : ∀ n, token.lastUsedAt = some n → InI64 n
  uses : token.uses < 2 ^ 64
  windowStartedAt : InI64 token.windowStartedAt
  windowUses : token.windowUses < 2 ^ 64
  roles : token.policy.roles.length < 2 ^ 64
  cells : TextsFit token.policy.cells
  regions : TextsFit token.policy.regions
  workspaces : token.policy.workspaces.length < 2 ^ 64
  projects : token.policy.projects.length < 2 ^ 64
  auditLabels : TextsFit token.policy.auditLabels
  expiresAt : ∀ n, token.policy.expiresAt = some n → InI64 n
  maxUses : ∀ n, token.policy.maxUses = some n → n < 2 ^ 64
  maxActiveNodes : ∀ n, token.policy.maxActiveNodes = some n → n < 2 ^ 64
  certificateLifetimeMs : ∀ n, token.policy.certificateLifetimeMs = some n → InI64 n
  enrollmentsEachHour : ∀ n, token.policy.enrollmentsEachHour = some n → n < 2 ^ 64

section
variable {token : RoleToken}

theorem filterMap_asText (texts : List String) : (texts.map Value.text).filterMap Value.asText = texts := by
  rw [filterMap_map]
  exact filterMap_some

theorem filterMap_ids (ids : List Id) :
    ((ids.map fun id => Value.bytes id.bytes).filterMap Value.asBytes).filterMap idOfBytes = ids := by
  have whole : ∀ id : Id, idOfBytes id.bytes = some id := fun id => by simp [idOfBytes]
  rw [filterMap_map, filterMap_filterMap]
  simp only [Function.comp_apply, Value.asBytes, Option.bind_some, whole]
  exact filterMap_some

theorem filterMap_roles (roles : List NodeRole) : (roles.map NodeRole.asStr).filterMap NodeRole.parse = roles := by
  rw [filterMap_map]
  simp only [Function.comp_def, NodeRole.parse_asStr]
  exact filterMap_some

theorem asInteger_unsigned (n : Nat) :
    (Value.unsigned n).asInteger = if n < 2 ^ 63 then some (n : Int) else none := rfl

theorem asU64_natCast {n : Nat} (small : n < 2 ^ 63) : asU64 (n : Int) = n := by
  unfold asU64
  omega

theorem keptLimit_eq (limit : Option Nat) :
    ((limit.map Value.unsigned).bind Value.asInteger).map asU64 = keptLimit limit := by
  cases limit with
  | none => rfl
  | some n =>
    simp only [Option.map_some, Option.bind_some, asInteger_unsigned, keptLimit,
      Option.filter_some, decide_eq_true_eq]
    by_cases small : n < 2 ^ 63
    · rw [if_pos small, if_pos small, Option.map_some, asU64_natCast small]
    · rw [if_neg small, if_neg small, Option.map_none]

theorem keptCount_eq (n : Nat) : (max (((Value.unsigned n).asInteger).getD 0) 0).toNat = keptCount n := by
  rw [asInteger_unsigned, keptCount]
  split <;> simp

theorem moment_eq {moment : Option Int} (fits : ∀ n, moment = some n → InI64 n) :
    (moment.map Value.integer).bind Value.asInteger = moment := by
  cases moment with
  | none => rfl
  | some n => exact asInteger_integer (fits n rfl)

theorem field_encodeToken (name : String) :
    (encodeToken token).field name = (tokenFields token).get? name := rfl

/-- A token comes back from its record with its counts and limits as an `i64` has them. -/
theorem decodeToken_encodeToken (fits : TokenFits token) :
    decodeToken token.tokenId (encodeToken token) = kept token := by
  have texts : ∀ name values, (tokenFields token).get? name = some (textList values) →
      readTextList (encodeToken token) name = values := by
    intro name values found
    simp only [readTextList, field_encodeToken, found, Option.bind_some, textList, Value.asArray,
      Option.map_some, Option.getD_some, filterMap_asText]
  have ids : ∀ name values, (tokenFields token).get? name = some (idList values) →
      readIdList (encodeToken token) name = values := by
    intro name values found
    simp only [readIdList, field_encodeToken, found, Option.bind_some, idList, Value.asArray,
      Option.map_some, Option.getD_some, filterMap_ids]
  have moments : ∀ name moment, (∀ n, moment = some n → InI64 n) →
      (tokenFields token).get? name = moment.map .integer →
      optionalInteger (encodeToken token) name = moment := by
    intro name moment inside found
    rw [optionalInteger, field_encodeToken, found, moment_eq inside]
  have required : ∀ name moment, InI64 moment →
      (tokenFields token).get? name = some (.integer moment) →
      integerField (encodeToken token) name = moment := by
    intro name moment inside found
    simp only [integerField, optionalInteger, field_encodeToken, found, Option.bind_some,
      asInteger_integer inside, Option.getD_some]
  have counts : ∀ name n, (tokenFields token).get? name = some (.unsigned n) →
      (max (integerField (encodeToken token) name) 0).toNat = keptCount n := by
    intro name n found
    rw [integerField, optionalInteger, field_encodeToken, found, Option.bind_some, keptCount_eq]
  have limits : ∀ name limit, (tokenFields token).get? name = Option.map Value.unsigned limit →
      (optionalInteger (encodeToken token) name).map asU64 = keptLimit limit := by
    intro name limit found
    rw [optionalInteger, field_encodeToken, found, keptLimit_eq]
  have digest : readDigest (encodeToken token) = token.digest := by
    have found : (tokenFields token).get? "digest" = some (.bytes token.digest.val) := by
      simp [tokenFields, get?_put, get?_putSome]
    simp [readDigest, field_encodeToken, found, Value.asBytes, token.digest.property]
  have label : textField (encodeToken token) "label" = some token.label := by
    have found : (tokenFields token).get? "label" = some (.text token.label) := by
      simp [tokenFields, get?_put, get?_putSome]
    rw [textField, field_encodeToken, found]
    rfl
  have roles : readTextList (encodeToken token) "roles" = token.policy.roles.map NodeRole.asStr := by
    refine texts "roles" _ ?_
    simp [tokenFields, get?_put, get?_putSome, textList, Function.comp_def]
  rw [decodeToken, digest, label, roles, filterMap_roles,
    required "created" _ fits.createdAt (by simp [tokenFields, get?_put, get?_putSome]),
    moments "revoked" _ fits.revokedAt (by simp [tokenFields, get?_put, get?_putSome, get?_empty]),
    moments "used" _ fits.lastUsedAt (by simp [tokenFields, get?_put, get?_putSome, get?_empty]),
    counts "uses" token.uses (by simp [tokenFields, get?_put, get?_putSome]),
    required "windowStart" _ fits.windowStartedAt (by simp [tokenFields, get?_put]),
    counts "windowUses" token.windowUses (by simp [tokenFields, get?_put]),
    texts "cells" token.policy.cells (by simp [tokenFields, get?_put, get?_putSome]),
    texts "regions" token.policy.regions (by simp [tokenFields, get?_put, get?_putSome]),
    ids "workspaces" token.policy.workspaces (by simp [tokenFields, get?_put, get?_putSome]),
    ids "projects" token.policy.projects (by simp [tokenFields, get?_put, get?_putSome]),
    texts "labels" token.policy.auditLabels (by simp [tokenFields, get?_put, get?_putSome]),
    moments "expires" _ fits.expiresAt (by simp [tokenFields, get?_put, get?_putSome, get?_empty]),
    limits "maxUses" token.policy.maxUses
      (by simp [tokenFields, get?_put, get?_putSome, get?_empty]),
    limits "maxNodes" token.policy.maxActiveNodes
      (by simp [tokenFields, get?_put, get?_putSome, get?_empty]),
    moments "certLife" _ fits.certificateLifetimeMs
      (by simp [tokenFields, get?_put, get?_putSome, get?_empty]),
    limits "rate" token.policy.enrollmentsEachHour
      (by simp [tokenFields, get?_put, get?_putSome, get?_empty])]
  rfl

theorem fits_textList {n : Nat} {texts : List String} (fits : TextsFit texts) : (textList texts).Fits (n + 1) := by
  refine ⟨by simpa using fits.1, fun item inside => ?_⟩
  obtain ⟨text, there, rfl⟩ := mem_map.mp inside
  exact fits_text (fits.2 text there)

theorem fits_idList {n : Nat} {ids : List Id} (fits : ids.length < 2 ^ 64) : (idList ids).Fits (n + 1) := by
  refine ⟨by simpa using fits, fun item inside => ?_⟩
  obtain ⟨id, -, rfl⟩ := mem_map.mp inside
  exact fits_id n id

theorem fits_roles {n : Nat} {roles : List NodeRole} (fits : roles.length < 2 ^ 64) :
    (Value.array (roles.map fun role => .text role.asStr)).Fits (n + 1) := by
  refine ⟨by simpa using fits, fun item inside => ?_⟩
  obtain ⟨role, -, rfl⟩ := mem_map.mp inside
  exact fits_text role.fits_asStr

theorem fits_moment {n : Nat} {moment : Option Int} (fits : ∀ m, moment = some m → InI64 m) :
    ∀ v, moment.map Value.integer = some v → v.Fits n := by
  intro v found
  obtain ⟨m, there, rfl⟩ := Option.map_eq_some_iff.mp found
  exact fits_integer (fits m there)

theorem fits_unsigned {n m : Nat} (fits : m < 2 ^ 64) : (Value.unsigned m).Fits n := by
  rwa [Value.Fits]

theorem fits_limit {n : Nat} {limit : Option Nat} (fits : ∀ m, limit = some m → m < 2 ^ 64) :
    ∀ v, limit.map Value.unsigned = some v → v.Fits n := by
  intro v found
  obtain ⟨m, there, rfl⟩ := Option.map_eq_some_iff.mp found
  exact fits_unsigned (fits m there)

theorem fits_encodeToken (fits : TokenFits token) : (encodeToken token).Fits maxDepth := by
  have key : ∀ name ∈ ["digest", "label", "created", "uses", "revoked", "used", "roles", "cells",
      "regions", "workspaces", "projects", "labels", "expires", "maxUses", "maxNodes", "certLife",
      "rate", "windowStart", "windowUses"], TextFits name := by
    unfold TextFits
    decide
  have digest : (Value.bytes token.digest.val).Fits 31 := by
    rw [Value.Fits, token.digest.property]
    decide
  refine @Holds.build 31 19 _ ?_ (by omega)
  exact Holds.empty 31
    |>.put (key _ (by simp)) digest
    |>.put (key _ (by simp)) (fits_text fits.label)
    |>.put (key _ (by simp)) (fits_integer fits.createdAt)
    |>.put (key _ (by simp)) (fits_unsigned fits.uses)
    |>.putSome (key _ (by simp)) (fits_moment fits.revokedAt)
    |>.putSome (key _ (by simp)) (fits_moment fits.lastUsedAt)
    |>.put (key _ (by simp)) (fits_roles fits.roles)
    |>.put (key _ (by simp)) (fits_textList fits.cells)
    |>.put (key _ (by simp)) (fits_textList fits.regions)
    |>.put (key _ (by simp)) (fits_idList fits.workspaces)
    |>.put (key _ (by simp)) (fits_idList fits.projects)
    |>.put (key _ (by simp)) (fits_textList fits.auditLabels)
    |>.putSome (key _ (by simp)) (fits_moment fits.expiresAt)
    |>.putSome (key _ (by simp)) (fits_limit fits.maxUses)
    |>.putSome (key _ (by simp)) (fits_limit fits.maxActiveNodes)
    |>.putSome (key _ (by simp)) (fits_moment fits.certificateLifetimeMs)
    |>.putSome (key _ (by simp)) (fits_limit fits.enrollmentsEachHour)
    |>.put (key _ (by simp)) (fits_integer fits.windowStartedAt)
    |>.put (key _ (by simp)) (fits_unsigned fits.windowUses)

theorem readToken_encode (fits : TokenFits token) :
    readToken token.tokenId (encode (encodeToken token)) = .ok (kept token) := by
  rw [readToken, decodeValue, decode_encode (fits_encodeToken fits)]
  exact congrArg Except.ok (decodeToken_encodeToken fits)

theorem keptCount_eq_self (n : Nat) : keptCount n = n ↔ n < 2 ^ 63 := by
  unfold keptCount
  split <;> omega

theorem keptLimit_eq_self (limit : Option Nat) : keptLimit limit = limit ↔ ∀ n ∈ limit, n < 2 ^ 63 := by
  cases limit with
  | none => simp [keptLimit]
  | some n =>
    simp only [keptLimit, Option.filter_some, decide_eq_true_eq, Option.mem_some_iff, forall_eq']
    by_cases small : n < 2 ^ 63
    · exact iff_of_true (if_pos small) small
    · refine iff_of_false ?_ small
      rw [if_neg small]
      exact (Option.some_ne_none n).symm

theorem kept_eq_self : kept token = token ↔ SignedLimits token := by
  obtain ⟨tokenId, digest, label, policy, createdAt, revokedAt, lastUsedAt, uses, start, inWindow⟩ := token
  obtain ⟨roles, cells, regions, workspaces, projects, expiresAt, maxUses, maxNodes, life, rate,
    labels⟩ := policy
  simp only [kept, SignedLimits, RoleToken.mk.injEq, RoleTokenPolicy.mk.injEq, true_and, and_true,
    keptCount_eq_self, keptLimit_eq_self]
  constructor
  · rintro ⟨⟨first, second, third⟩, fourth, fifth⟩
    exact ⟨fourth, fifth, first, second, third⟩
  · rintro ⟨fourth, fifth, first, second, third⟩
    exact ⟨⟨first, second, third⟩, fourth, fifth⟩

/-- A stored token reads back as it was exactly where no limit and no count reaches 2^63. -/
theorem token_reads_back_iff (fits : TokenFits token) :
    readToken token.tokenId (encode (encodeToken token)) = .ok token ↔ SignedLimits token := by
  rw [readToken_encode fits, Except.ok.injEq, kept_eq_self]

end

/-- A token for one role, with the smallest limit that an `i64` has not. -/
def vastToken : RoleToken where
  tokenId := "0a1b"
  digest := Digest.zero
  label := "pods"
  policy := { roles := [.collectorIntake], maxUses := some (2 ^ 63) }
  createdAt := 0
  revokedAt := none
  lastUsedAt := none
  uses := 0
  windowStartedAt := 0
  windowUses := 0

theorem vastToken_fits : TokenFits vastToken := by
  constructor <;> decide

theorem token_reads_back_vast : readToken vastToken.tokenId (encode (encodeToken vastToken)) = .ok vastToken ↔
      SignedLimits vastToken :=
  token_reads_back_iff vastToken_fits

/-- The limit is gone when the token is read. -/
theorem stored_limit_lost : readToken vastToken.tokenId (encode (encodeToken vastToken)) ≠ .ok vastToken ∧
      (kept vastToken).policy.maxUses = none ∧
      readToken vastToken.tokenId (encode (encodeToken vastToken)) = .ok (kept vastToken) := by
  refine ⟨?_, by decide, readToken_encode vastToken_fits⟩
  rw [readToken_encode vastToken_fits]
  decide

end TallyOwl.Identity
