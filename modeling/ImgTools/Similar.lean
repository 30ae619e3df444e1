import ImgTools.ByteSource
import ImgTools.Related

/-!
# Sources that cannot be told apart

Two byte sources are similar under a relation of their states when related
states have one size, and every read of fewer than `bound` bytes has the same
result on both and leaves them related. What any number of requests observes of
similar sources is then the same.
-/

namespace ImgTools

open Exec

section Sources

variable {S T U : Type} [ByteSource S] [ByteSource T] [ByteSource U]

/-- `R` is a bisimulation of two sources for requests of fewer than `bound` bytes. -/
structure Similar (bound : Nat) (R : S → T → Prop) : Prop where
  size_eq : ∀ s t, R s t → ByteSource.size s = ByteSource.size t
  read_alike : ∀ (offset : UInt64) (length : Nat), length < bound →
    Reading.Alike R (ByteSource.read offset length) (ByteSource.read offset length)

namespace Similar

variable {bound : Nat}

theorem refl : Similar bound (Eq : S → S → Prop) where
  size_eq := by
    rintro s _ rfl
    rfl
  read_alike := by
    rintro offset length _ s _ rfl
    cases (ByteSource.read offset length).run s with
    | done p => exact .done ⟨rfl, rfl⟩
    | panic reason => exact .panic reason
    | spin => exact .spin

theorem comp {R : S → T → Prop} {R' : T → U → Prop} (h : Similar bound R)
    (h' : Similar bound R') : Similar bound (fun s u => ∃ t, R s t ∧ R' t u) where
  size_eq := by
    rintro s u ⟨t, hst, htu⟩
    exact (h.size_eq s t hst).trans (h'.size_eq t u htu)
  read_alike offset length hlength :=
    (h.read_alike offset length hlength).comp (h'.read_alike offset length hlength)

end Similar

/-! ### What requests observe -/

/-- Answer the requests one after the other, with the size the source claims before each. -/
def session : List (UInt64 × Nat) → Reading S ByteSourceError
    (List (UInt64 × Except ByteSourceError (List UInt8)))
  | [] => return []
  | (offset, length) :: requests => do
    let size ← .ask ByteSource.size
    let result ← .attempt (ByteSource.read offset length)
    let observed ← session requests
    return (size, result) :: observed

theorem session_alike {bound : Nat} {R : S → T → Prop} (h : Similar bound R)
    (requests : List (UInt64 × Nat)) (hrequests : ∀ request ∈ requests, request.2 < bound) :
    Reading.Alike R (session (S := S) requests) (session (S := T) requests) := by
  induction requests with
  | nil => exact .pure []
  | cons request requests ih =>
    obtain ⟨offset, length⟩ := request
    have hlength : length < bound := hrequests _ List.mem_cons_self
    refine .bind (.ask h.size_eq) fun size => ?_
    refine .bind (.attempt (h.read_alike offset length hlength)) fun result => ?_
    refine .bind (ih fun r hr => hrequests r (List.mem_cons_of_mem _ hr)) fun observed => ?_
    exact .pure _

def Bisimilar (bound : Nat) (s : S) (t : T) : Prop := ∃ R : S → T → Prop, Similar bound R ∧ R s t

/-- Sources that no sequence of requests of fewer than `bound` bytes tells apart. -/
def SameAnswers (bound : Nat) (s : S) (t : T) : Prop :=
  ByteSource.size s = ByteSource.size t ∧
    ∀ requests : List (UInt64 × Nat), (∀ request ∈ requests, request.2 < bound) →
      (session requests).eval s = (session requests).eval t

namespace Bisimilar

variable {bound : Nat} {s : S} {t : T} {u : U}

theorem refl (s : S) : Bisimilar bound s s := ⟨Eq, .refl, rfl⟩

theorem trans (h : Bisimilar bound s t) (h' : Bisimilar bound t u) : Bisimilar bound s u := by
  obtain ⟨R, hR, hst⟩ := h
  obtain ⟨R', hR', htu⟩ := h'
  exact ⟨_, hR.comp hR', t, hst, htu⟩

theorem sameAnswers (h : Bisimilar bound s t) : SameAnswers bound s t := by
  obtain ⟨R, hR, hst⟩ := h
  refine ⟨hR.size_eq s t hst, fun requests hrequests => ?_⟩
  exact (session_alike hR requests hrequests).eval_eq hst

end Bisimilar

end Sources

end ImgTools
