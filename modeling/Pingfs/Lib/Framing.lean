import Mathlib.Data.List.Basic
import Mathlib.Tactic.Common

/-!
# Frames in a stream

A stream is a concatenation of frames, of which the last may be unfinished, and it arrives in
chunks that are cut without regard to the frames. A receiver keeps what it has of an unfinished
frame until the rest has come. If it does right by one chunk, it does right by any cutting.

## Main results

* `exists_split` — what has arrived of a stream is some whole frames and an unfinished one
* `foldl_receive` — a receiver that handles a chunk handles any cutting into chunks
-/

namespace Framing

variable {α σ : Type*} {Frame : List α → Prop} {frames : List (List α)} {u : List α}

/-- The beginning of a frame, but not all of it. -/
def Unfinished (Frame : List α → Prop) (u : List α) : Prop := ∃ f, Frame f ∧ u <+: f ∧ u ≠ f

/-- Every frame has a first element, so nothing at all is the beginning of one. -/
theorem unfinished_nil {f : List α} (hf : Frame f) (hne : f ≠ []) : Unfinished Frame [] :=
  ⟨f, hf, List.nil_prefix, hne.symm⟩

/-- No frame is the beginning of another. -/
def PrefixFree (Frame : List α → Prop) : Prop := ∀ f g, Frame f → Frame g → f <+: g → f = g

theorem Unfinished.not_prefix (hfree : PrefixFree Frame) (hu : Unfinished Frame u) {f : List α}
    (hf : Frame f) : ¬ f <+: u := by
  obtain ⟨g, hg, hprefix, hne⟩ := hu
  intro hfu
  obtain rfl := hfree f g hf hg (hfu.trans hprefix)
  exact hne (List.IsPrefix.eq_of_length_le hprefix hfu.length_le)

theorem Unfinished.of_prefix (hu : Unfinished Frame u) {v : List α} (hv : v <+: u) :
    Unfinished Frame v := by
  obtain ⟨f, hf, hprefix, hne⟩ := hu
  refine ⟨f, hf, hv.trans hprefix, fun heq => hne ?_⟩
  rw [heq] at hv
  exact List.IsPrefix.eq_of_length_le hprefix hv.length_le

/-- **What has arrived** of a stream: whole frames, and the beginning of the next. -/
theorem exists_split (hframes : ∀ f ∈ frames, Frame f) (hu : Unfinished Frame u)
    {arrived later : List α} (h : arrived ++ later = frames.flatten ++ u) :
    ∃ done rest v, frames = done ++ rest ∧ arrived = done.flatten ++ v ∧
      v ++ later = rest.flatten ++ u ∧ Unfinished Frame v := by
  induction frames generalizing arrived with
  | nil =>
    rw [List.flatten_nil, List.nil_append] at h
    exact ⟨[], [], arrived, rfl, rfl, h, hu.of_prefix ⟨later, h⟩⟩
  | cons f frames ih =>
    by_cases hf : f <+: arrived
    · obtain ⟨arrived, rfl⟩ := hf
      rw [List.flatten_cons, List.append_assoc, List.append_assoc, List.append_cancel_left_eq] at h
      obtain ⟨done, rest, v, rfl, rfl, hlater, hv⟩ :=
        ih (fun g hg => hframes g (List.mem_cons_of_mem _ hg)) h
      refine ⟨f :: done, rest, v, rfl, ?_, hlater, hv⟩
      rw [List.flatten_cons, List.append_assoc]
    · -- the first frame has not arrived yet
      have hprefix : arrived <+: f := by
        refine (List.prefix_or_prefix_of_prefix (List.prefix_append arrived later)
          ?_).resolve_right hf
        rw [h, List.flatten_cons, List.append_assoc]
        exact List.prefix_append f _
      refine ⟨[], f :: frames, arrived, rfl, rfl, h, f, hframes f List.mem_cons_self, hprefix, ?_⟩
      rintro rfl
      exact hf List.prefix_rfl

/-- An unfinished frame has no whole frames in it. -/
theorem Unfinished.eq_of_append (hfree : PrefixFree Frame) {v : List α} (hv : Unfinished Frame v)
    (hframes : ∀ f ∈ frames, Frame f) (h : v = frames.flatten ++ u) : frames = [] ∧ v = u := by
  cases frames with
  | nil => exact ⟨rfl, h⟩
  | cons f frames =>
    rw [List.flatten_cons, List.append_assoc] at h
    exact absurd (h ▸ List.prefix_append f _) (hv.not_prefix hfree (hframes f List.mem_cons_self))

/-- **Chunks do not matter.** `state done v` is where a receiver is to be after the frames `done`
and the beginning `v` of another. If each chunk takes it from one such state to the next, then
any cutting of a stream takes it to the last. -/
theorem foldl_receive (hfree : PrefixFree Frame) {receive : σ → List α → σ}
    {state : List (List α) → List α → σ}
    (hreceive : ∀ done v chunk frames w, (∀ f ∈ frames, Frame f) → Unfinished Frame w →
      v ++ chunk = frames.flatten ++ w → receive (state done v) chunk = state (done ++ frames) w)
    (hframes : ∀ f ∈ frames, Frame f) (hu : Unfinished Frame u) {chunks : List (List α)}
    {done : List (List α)} {v : List α} (hv : Unfinished Frame v)
    (h : v ++ chunks.flatten = frames.flatten ++ u) :
    chunks.foldl receive (state done v) = state (done ++ frames) u := by
  induction chunks generalizing done v frames with
  | nil =>
    rw [List.flatten_nil, List.append_nil] at h
    obtain ⟨rfl, rfl⟩ := hv.eq_of_append hfree hframes h
    rw [List.append_nil, List.foldl_nil]
  | cons chunk chunks ih =>
    rw [List.flatten_cons, ← List.append_assoc] at h
    obtain ⟨now, rest, w, rfl, hnow, hlater, hw⟩ := exists_split hframes hu h
    rw [List.foldl_cons, hreceive done v chunk now w
      (fun f hf => hframes f (List.mem_append_left _ hf)) hw hnow,
      ih (fun f hf => hframes f (List.mem_append_right _ hf)) hw hlater, List.append_assoc]

end Framing
