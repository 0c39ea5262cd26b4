import Mathlib.Tactic.Common

/-! Computations that may fail and keep a log of what they took from outside. A failure
keeps what was logged before it. -/
namespace TallyOwl.Lib

theorem except_bind_ok {ε α β : Type*} {x : Except ε α} {f : α → Except ε β} {b : β}
    (ok : Except.bind x f = .ok b) : ∃ a, x = .ok a ∧ f a = .ok b := by
  cases x with
  | error e => cases ok
  | ok a => exact ⟨a, rfl, ok⟩

structure Logged (ρ ε α : Type*) where
  log : List ρ
  result : Except ε α

namespace Logged
universe u
variable {ρ ε : Type*} {α β : Type u}

def pure (a : α) : Logged ρ ε α := ⟨[], .ok a⟩

def bind (m : Logged ρ ε α) (f : α → Logged ρ ε β) : Logged ρ ε β :=
  match m.result with
  | .ok a => ⟨m.log ++ (f a).log, (f a).result⟩
  | .error e => ⟨m.log, .error e⟩

instance : Monad (Logged ρ ε) where
  pure := pure
  bind := bind

def lift (result : Except ε α) : Logged ρ ε α := ⟨[], result⟩

def throw (e : ε) : Logged ρ ε α := lift (.error e)

def note (entries : List ρ) : Logged ρ ε Unit := ⟨entries, .ok ()⟩

@[simp] theorem result_pure (a : α) : (Pure.pure a : Logged ρ ε α).result = .ok a := rfl

@[simp] theorem result_lift (result : Except ε α) : (lift result : Logged ρ ε α).result = result := rfl

@[simp] theorem result_throw (e : ε) : (throw e : Logged ρ ε α).result = .error e := rfl

@[simp] theorem result_note (entries : List ρ) :
    (note entries : Logged ρ ε Unit).result = .ok () := rfl

theorem result_bind (m : Logged ρ ε α) (f : α → Logged ρ ε β) :
    (m >>= f).result = m.result.bind fun a => (f a).result := by
  change (Logged.bind m f).result = _
  unfold Logged.bind
  split
  · rename_i a ok
    rw [ok]
    rfl
  · rename_i e failed
    rw [failed]
    rfl

def Keeps (p : ρ → Prop) (m : Logged ρ ε α) : Prop := ∀ r ∈ m.log, p r

variable {p : ρ → Prop}

theorem Keeps.pure (a : α) : Keeps p (Pure.pure a : Logged ρ ε α) := by
  rintro r ⟨⟩

theorem Keeps.lift (result : Except ε α) : Keeps p (Logged.lift result : Logged ρ ε α) := by
  rintro r ⟨⟩

theorem Keeps.throw (e : ε) : Keeps p (Logged.throw e : Logged ρ ε α) := .lift _

theorem Keeps.note {entries : List ρ} (each : ∀ r ∈ entries, p r) :
    Keeps p (Logged.note entries : Logged ρ ε Unit) := each

theorem Keeps.bind {m : Logged ρ ε α} {f : α → Logged ρ ε β} (first : Keeps p m)
    (rest : ∀ a, m.result = .ok a → Keeps p (f a)) : Keeps p (m >>= f) := by
  change Keeps p (Logged.bind m f)
  unfold Logged.bind
  split
  · rename_i a ok
    intro r inside
    rcases List.mem_append.mp inside with here | there
    · exact first r here
    · exact rest a ok r there
  · exact first

theorem bind_congr {m n : Logged ρ ε α} {f g : α → Logged ρ ε β} (first : m = n)
    (rest : ∀ a, m.result = .ok a → f a = g a) : m >>= f = n >>= g := by
  subst first
  change Logged.bind m f = Logged.bind m g
  unfold Logged.bind
  split
  · rename_i a ok
    rw [rest a ok]
  · rfl

end Logged
end TallyOwl.Lib
