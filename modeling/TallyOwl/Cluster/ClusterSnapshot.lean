import TallyOwl.Store.Cbor
import TallyOwl.Store.Format

/-! The checksum of a cluster snapshot (`recovery.rs`). Names and bodies go into one hasher, one behind the
other, and only a body has its length in front of it. The hash is a parameter. -/
namespace TallyOwl.Backup
open Lib Format List

/-- What one tablet holds. A vector is no longer than an `isize`. -/
structure Body where
  bytes : Bytes
  fits : bytes.length < 2 ^ 63
  deriving DecidableEq

abbrev Part := String × Body

structure ClusterSnapshot (δ : Type) where
  snapshotId : String
  tablets : List String
  takenAt : Int
  totalBytes : Nat
  wholeDigest : δ

structure DamagedSnapshot where
  message : String
  deriving DecidableEq

def partBytes (part : Part) : Bytes := textBytes part.1 ++ (putU64 part.2.bytes.length ++ part.2.bytes)

def streamOf (parts : List Part) : Bytes := parts.flatMap partBytes

section
variable {δ : Type} [DecidableEq δ] (hash : Bytes → δ)

def snapshotDigest (parts : List Part) : δ := hash (streamOf parts)

def takeSnapshot (snapshotId : String) (moment : Int) (parts : List Part) : ClusterSnapshot δ where
  snapshotId := snapshotId
  tablets := parts.map Prod.fst
  takenAt := moment
  totalBytes := (parts.map fun part => part.2.bytes.length).sum
  wholeDigest := snapshotDigest hash parts

def verifySnapshot (snapshot : ClusterSnapshot δ) (parts : List Part) : Except DamagedSnapshot Unit :=
  if snapshotDigest hash parts ≠ snapshot.wholeDigest then
    .error ⟨s!"Snapshot `{snapshot.snapshotId}` does not match its own checksum, so it is not restored. Restoring " ++
      "it would put data of unknown correctness back into the cluster."⟩
  else .ok ()

end

/-- Behind the parts that two lists share, a name of one goes on into what is the length and the body of the other's
part, and the bytes are the same from there. -/
inductive Overruns : List Part → List Part → Prop where
  | longer {name longer : String} {body other : Body} {rest after : List Part} (more : Bytes) (some : more ≠ [])
      (goesOn : textBytes longer = textBytes name ++ more)
      (same : putU64 body.bytes.length ++ body.bytes ++ streamOf rest =
        more ++ (putU64 other.bytes.length ++ other.bytes ++ streamOf after)) :
      Overruns ((name, body) :: rest) ((longer, other) :: after)
  | shorter {name longer : String} {body other : Body} {rest after : List Part} (more : Bytes) (some : more ≠ [])
      (goesOn : textBytes longer = textBytes name ++ more)
      (same : putU64 body.bytes.length ++ body.bytes ++ streamOf rest =
        more ++ (putU64 other.bytes.length ++ other.bytes ++ streamOf after)) :
      Overruns ((longer, other) :: after) ((name, body) :: rest)
  | behind {first second : List Part} (part : Part) (later : Overruns first second) :
      Overruns (part :: first) (part :: second)

section
variable {p q : List Part}

theorem streamOf_cons (name : String) (body : Body) (rest : List Part) : streamOf ((name, body) :: rest) =
      textBytes name ++ (putU64 body.bytes.length ++ body.bytes ++ streamOf rest) := by
  simp [streamOf, partBytes]

theorem streamOf_cons_ne_nil (part : Part) (rest : List Part) : streamOf (part :: rest) ≠ [] := by
  intro empty
  have length := congrArg List.length empty
  simp [streamOf, partBytes] at length

theorem body_of_append {body other : Body} {rest after : Bytes}
    (same : putU64 body.bytes.length ++ body.bytes ++ rest = putU64 other.bytes.length ++ other.bytes ++ after) :
    body = other ∧ rest = after := by
  simp only [append_assoc] at same
  obtain ⟨lengths, behind⟩ := append_inj same (by simp)
  have number : body.bytes.length = other.bytes.length := by
    have read := congrArg leNat lengths
    rw [putU64, putU64, leNat_leBytes, leNat_leBytes] at read
    · exact read
    · have fits := other.fits
      omega
    · have fits := body.fits
      omega
  obtain ⟨bytes, rest⟩ := append_inj behind number
  exact ⟨by cases body; cases other; simpa using bytes, rest⟩

theorem Overruns.apart (overruns : Overruns p q) : p ≠ q ∧ streamOf p = streamOf q := by
  induction overruns with
  | longer more some goesOn same =>
    refine ⟨fun equal => ?_, by
      rw [streamOf_cons, streamOf_cons, goesOn, same, append_assoc (textBytes _) more]⟩
    obtain ⟨rfl, -⟩ := Prod.mk.inj (List.cons.inj equal).1
    exact some (self_eq_append_right.mp goesOn)
  | shorter more some goesOn same =>
    refine ⟨fun equal => ?_, by
      rw [streamOf_cons, streamOf_cons, goesOn, same, append_assoc (textBytes _) more]⟩
    obtain ⟨rfl, -⟩ := Prod.mk.inj (List.cons.inj equal).1
    exact some (self_eq_append_right.mp goesOn)
  | behind part later ih =>
    refine ⟨fun equal => ih.1 (List.cons.inj equal).2, ?_⟩
    rw [streamOf_cons, streamOf_cons, ih.2]

theorem streamOf_inj : streamOf p = streamOf q ↔ p = q ∨ Overruns p q := by
  constructor
  · intro same
    induction p generalizing q with
    | nil =>
      cases q with
      | nil => exact .inl rfl
      | cons part rest => exact absurd same.symm (streamOf_cons_ne_nil part rest)
    | cons part rest ih =>
      cases q with
      | nil => exact absurd same (streamOf_cons_ne_nil part rest)
      | cons other after =>
        obtain ⟨name, body⟩ := part
        obtain ⟨called, held⟩ := other
        rw [streamOf_cons, streamOf_cons] at same
        -- one of the names is a beginning of the other
        rcases append_eq_append_iff.mp same with ⟨more, goesOn, behind⟩ | ⟨more, goesOn, behind⟩
        · cases more with
          | nil =>
            obtain rfl : called = name := Cbor.textBytes_injective (by simpa using goesOn)
            obtain ⟨rfl, later⟩ := body_of_append (by simpa using behind)
            rcases ih later with rfl | overruns
            · exact .inl rfl
            · exact .inr (.behind _ overruns)
          | cons b more => exact .inr (.longer _ (by simp) goesOn behind)
        · cases more with
          | nil =>
            obtain rfl : name = called := Cbor.textBytes_injective (by simpa using goesOn)
            obtain ⟨rfl, later⟩ := body_of_append (by simpa using behind.symm)
            rcases ih later with rfl | overruns
            · exact .inl rfl
            · exact .inr (.behind _ overruns)
          | cons b more => exact .inr (.shorter _ (by simp) goesOn behind)
  · rintro (rfl | overruns)
    · rfl
    · exact overruns.apart.2

theorem not_overruns_of_lengths
    (lengths : p.map (fun part => (textBytes part.1).length) = q.map fun part => (textBytes part.1).length) :
    ¬Overruns p q := by
  intro overruns
  induction overruns with
  | longer more some goesOn same =>
    simp only [map_cons, List.cons.injEq, goesOn, length_append] at lengths
    exact some (eq_nil_of_length_eq_zero (by omega))
  | shorter more some goesOn same =>
    simp only [map_cons, List.cons.injEq, goesOn, length_append] at lengths
    exact some (eq_nil_of_length_eq_zero (by omega))
  | behind part later ih => exact ih (List.cons.inj lengths).2

end

section
variable {δ : Type} [DecidableEq δ] (hash : Bytes → δ) (p q : List Part)

theorem verifySnapshot_take (snapshotId : String) (moment : Int) :
    verifySnapshot hash (takeSnapshot hash snapshotId moment p) q = .ok () ↔
      snapshotDigest hash q = snapshotDigest hash p := by
  unfold verifySnapshot
  split_ifs with other
  · simpa [takeSnapshot] using other
  · simpa [takeSnapshot] using other

end

/-- A part that reads as an empty one of a longer name and one more. -/
def disguised : Body := ⟨0 :: 99 :: putU64 88 ++ List.replicate 88 0, by decide⟩

end TallyOwl.Backup
