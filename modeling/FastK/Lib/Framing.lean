import Mathlib.Data.List.Basic
/-!
# Frames with a length prefix

A frame is a body behind a prefix of a fixed number of tokens that gives the body's length.  `next` takes the first
frame off a stream, or says why there is none: the stream is over, it is cut inside a frame, or the prefix gives a
length out of bounds.  A frame is taken off whatever follows it (`next_frame`) and stays the first frame however the
stream goes on (`next_append`); a frame that is cut short gives nothing (`next_cut`).
-/
namespace Framing

/-- A way to write lengths up to a limit in a fixed number of tokens. -/
structure Prefix (τ : Type) where
  width : Nat
  limit : Nat
  encode : Nat → List τ
  size : List τ → Nat
  width_pos : 0 < width
  length_encode : ∀ n, (encode n).length = width
  size_encode : ∀ n, n ≤ limit → size (encode n) = n

/-- What a stream starts with. -/
inductive Next (τ : Type) where
  | ended
  | cut
  | badSize
  | got (body rest : List τ)
  deriving DecidableEq

variable {τ : Type}

namespace Prefix

variable (p : Prefix τ)

/-- The bodies that a frame can carry. -/
def Fits (body : List τ) : Prop := 0 < body.length ∧ body.length ≤ p.limit

instance (body : List τ) : Decidable (p.Fits body) := inferInstanceAs (Decidable (_ ∧ _))

def frame (body : List τ) : List τ := p.encode body.length ++ body

def next (input : List τ) : Next τ :=
  if input = [] then .ended
  else if input.length < p.width then .cut
  else if p.size (input.take p.width) = 0 ∨ p.limit < p.size (input.take p.width) then .badSize
  else if input.length < p.width + p.size (input.take p.width) then .cut
  else .got ((input.drop p.width).take (p.size (input.take p.width)))
    (input.drop (p.width + p.size (input.take p.width)))

variable {p : Prefix τ} {body rest more input : List τ}

@[simp] theorem length_frame (body : List τ) : (p.frame body).length = p.width + body.length := by
  simp [frame, p.length_encode]

theorem frame_ne_nil (body : List τ) : p.frame body ≠ [] := by
  intro h
  have hlen := length_frame (p := p) body
  have hpos := p.width_pos
  rw [h, List.length_nil] at hlen
  omega

theorem take_frame (body rest : List τ) : (p.frame body ++ rest).take p.width = p.encode body.length := by
  rw [frame, List.append_assoc, List.take_append_of_le_length (by simp [p.length_encode]),
    List.take_of_length_le (by simp [p.length_encode])]

/-- **A frame is taken off whatever follows it.** -/
theorem next_frame (h : p.Fits body) (rest : List τ) : p.next (p.frame body ++ rest) = .got body rest := by
  have hsize : p.size ((p.frame body ++ rest).take p.width) = body.length := by rw [take_frame, p.size_encode _ h.2]
  unfold next
  rw [hsize, if_neg (by simp [frame_ne_nil]), if_neg (by simp; omega), if_neg (by have := h.1; have := h.2; omega),
    if_neg (by simp)]
  have hdrop : (p.frame body ++ rest).drop p.width = body ++ rest := by
    rw [frame, List.append_assoc, List.drop_append_of_le_length (by simp [p.length_encode]),
      List.drop_of_length_le (by simp [p.length_encode]), List.nil_append]
  rw [← List.drop_drop, hdrop, List.take_left, List.drop_left]

/-- **The first frame stays the first one, however the stream goes on.** -/
theorem next_append (h : p.next input = .got body rest) (more : List τ) :
    p.next (input ++ more) = .got body (rest ++ more) := by
  unfold next at h ⊢
  split at h
  · cases h
  rename_i hne
  split at h
  · cases h
  rename_i hwidth
  split at h
  · cases h
  rename_i hsize
  split at h
  · cases h
  rename_i hlen
  obtain ⟨rfl, rfl⟩ := Next.got.inj h
  have htake : (input ++ more).take p.width = input.take p.width := List.take_append_of_le_length (by omega)
  rw [if_neg (by simp [hne]), htake, if_neg (by simp; omega), if_neg hsize, if_neg (by simp; omega),
    List.drop_append_of_le_length (by omega), List.take_append_of_le_length (by simp; omega),
      List.drop_append_of_le_length (by omega)]

theorem next_got_length (h : p.next input = .got body rest) : rest.length < input.length := by
  unfold next at h
  split at h
  · cases h
  split at h
  · cases h
  split at h
  · cases h
  split at h
  · cases h
  obtain ⟨rfl, rfl⟩ := Next.got.inj h
  have hpos := p.width_pos
  simp
  omega

/-- A frame that is cut short gives nothing. -/
theorem next_cut (h : p.Fits body) (hpre : input <+: p.frame body) (hne : input ≠ []) (hcut : input ≠ p.frame body) :
    p.next input = .cut := by
  obtain ⟨missing, hm⟩ := hpre
  have hlen : input.length < p.width + body.length := by
    have hall := congrArg List.length hm
    have hpos : 0 < missing.length := List.length_pos_of_ne_nil (fun hnil => hcut (by rw [← hm, hnil, List.append_nil]))
    rw [List.length_append, length_frame] at hall
    omega
  unfold next
  rw [if_neg hne]
  by_cases hwidth : input.length < p.width
  · rw [if_pos hwidth]
  · have htake : input.take p.width = p.encode body.length := by
      rw [← take_frame (p := p) body [], List.append_nil, ← hm, List.take_append_of_le_length (by omega)]
    rw [if_neg hwidth, htake, p.size_encode _ h.2, if_neg (by have := h.1; have := h.2; omega), if_pos hlen]

/-- What is taken off the start of a frame is the whole frame. -/
theorem next_got_prefix {whole : List τ} (h : p.Fits whole) (hpre : input <+: p.frame whole)
    (hgot : p.next input = .got body rest) :
    input = p.frame whole ∧ body = whole ∧ rest = [] := by
  have hne : input ≠ [] := by
    rintro rfl
    rw [show p.next [] = .ended from rfl] at hgot
    cases hgot
  by_cases hall : input = p.frame whole
  · have hnext := next_frame h []
    rw [List.append_nil, ← hall, hgot] at hnext
    obtain ⟨hbody, hrest⟩ := Next.got.inj hnext
    exact ⟨hall, hbody, hrest⟩
  · rw [next_cut h hpre hne hall] at hgot
    cases hgot

/-- The start of a frame has no bad length. -/
theorem next_prefix_ne_badSize {whole : List τ} (h : p.Fits whole) (hpre : input <+: p.frame whole) :
    p.next input ≠ .badSize := by
  intro hbad
  by_cases hne : input = []
  · rw [hne, show p.next [] = .ended from rfl] at hbad
    cases hbad
  by_cases hall : input = p.frame whole
  · have hnext := next_frame h []
    rw [List.append_nil, ← hall, hbad] at hnext
    cases hnext
  · rw [next_cut h hpre hne hall] at hbad
    cases hbad

end Prefix
end Framing
