import Mathlib.Data.Finset.Card
import Xv6Filter.Fs.Inode

namespace Xv6Filter.Proofs
open Lib

def InBitmap (sb : Superblock) (b : Nat) : Prop := ∃ x, x < sb.size ∧ b = x / bpb + sb.bmapstart

/-- From `fs` to `fs'` only bitmap blocks, blocks of `T` and `k` others were logged. -/
structure Logs (T : Finset Nat) (k : Nat) (fs fs' : Fs) : Prop where
  sb : fs'.sb = fs.sb
  within : ∃ E : Finset Nat, E.card ≤ k ∧
    ∀ b ∈ fs'.logged, b ∈ fs.logged ∨ InBitmap fs.sb b ∨ b ∈ T ∨ b ∈ E

@[simp] theorem mem_logWrite {fs : Fs} : x ∈ (fs.logWrite b).logged ↔ x ∈ fs.logged ∨ x = b := by
  unfold Fs.logWrite
  split
  · rename_i h
    constructor
    · exact .inl
    · rintro (hx | rfl)
      · exact hx
      · exact h
  · simp

namespace Logs

variable {fs fs1 fs' : Fs} {T T' : Finset Nat} {k k' : Nat}

theorem of_eq (hs : fs'.sb = fs.sb) (hl : fs'.logged = fs.logged) : Logs T k fs fs' :=
  ⟨hs, ∅, by simp, fun b hb => .inl (hl ▸ hb)⟩

theorem refl (T : Finset Nat) (k : Nat) (fs : Fs) : Logs T k fs fs := of_eq rfl rfl

theorem mono (h : Logs T k fs fs') (hT : T ⊆ T') (hk : k ≤ k') : Logs T' k' fs fs' := by
  obtain ⟨E, hE, hin⟩ := h.within
  refine ⟨h.sb, E, by omega, ?_⟩
  intro b hb
  rcases hin b hb with h | h | h | h
  · exact .inl h
  · exact .inr (.inl h)
  · exact .inr (.inr (.inl (hT h)))
  · exact .inr (.inr (.inr h))

theorem trans (h : Logs T k fs fs1) (h' : Logs T k' fs1 fs') : Logs T (k + k') fs fs' := by
  obtain ⟨E, hE, hin⟩ := h.within
  obtain ⟨E', hE', hin'⟩ := h'.within
  refine ⟨h'.sb.trans h.sb, E ∪ E', ?_, ?_⟩
  · have := Finset.card_union_le E E'
    omega
  · intro b hb
    rcases hin' b hb with hb | hb | hb | hb
    · rcases hin b hb with hb | hb | hb | hb
      · exact .inl hb
      · exact .inr (.inl hb)
      · exact .inr (.inr (.inl hb))
      · exact .inr (.inr (.inr (Finset.mem_union_left _ hb)))
    · exact .inr (.inl (h.sb ▸ hb))
    · exact .inr (.inr (.inl hb))
    · exact .inr (.inr (.inr (Finset.mem_union_right _ hb)))

theorem tail (h : Logs T k fs fs1) (h' : Logs T 0 fs1 fs') : Logs T k fs fs' := h.trans h'

/-- The number of distinct blocks logged, on a disk with one bitmap block. -/
theorem card_le (h : Logs T k fs fs') (h0 : fs.logged = []) (hone : fs.sb.size ≤ bpb) :
    fs'.logged.toFinset.card ≤ 1 + T.card + k := by
  obtain ⟨E, hE, hin⟩ := h.within
  have hsub : fs'.logged.toFinset ⊆ {fs.sb.bmapstart} ∪ T ∪ E := by
    intro b hb
    simp only [Finset.mem_union, Finset.mem_singleton]
    rcases hin b (List.mem_toFinset.mp hb) with hb | ⟨x, hx, rfl⟩ | hb | hb
    · simp [h0] at hb
    · left
      left
      rw [Nat.div_eq_of_lt (by omega), Nat.zero_add]
    · exact .inl (.inr hb)
    · exact .inr hb
  have h1 := Finset.card_le_card hsub
  have h2 := Finset.card_union_le ({fs.sb.bmapstart} ∪ T) E
  have h3 := Finset.card_union_le {fs.sb.bmapstart} T
  rw [Finset.card_singleton] at h3
  omega

end Logs

theorem Logs.update {fs : Fs} {ip : Ip} (h : fs.iblock (fs.inode ip).inum ∈ T) (d : Dinode) :
    Logs T 0 fs ((fs.setDin ip d).iupdate ip) := by
  refine ⟨by simp [Fs.iupdate], ∅, by simp, ?_⟩
  intro b hb
  rcases mem_logWrite.mp hb with hb | rfl
  · exact .inl hb
  · refine .inr (.inr (.inl ?_))
    simpa [Fs.iblock] using h

theorem balloc_logged {fs fs' : Fs} (h : fs.balloc = (b, fs')) (hx : x ∈ fs'.logged) :
    x ∈ fs.logged ∨ InBitmap fs.sb x ∨ x = b := by
  unfold Fs.balloc at h
  split at h
  · cases h
    exact .inl hx
  · rename_i c hc
    cases h
    rcases mem_logWrite.mp hx with hx | rfl
    · rcases mem_logWrite.mp hx with hx | rfl
      · exact .inl hx
      · exact .inr (.inl ⟨b, List.mem_range.mp (List.mem_of_find?_eq_some hc), rfl⟩)
    · exact .inr (.inr rfl)

end Xv6Filter.Proofs
