import Mathlib.Data.List.Infix
import Mathlib.Logic.Function.Basic
import Mathlib.Tactic.Common

/-!
# Support — FileTree

A file system as the map of its paths: a path is the list of its names, `[]` the root, and it leads
to nothing, to a directory or to a file with its content.

* `Clear`, `FirstFile`: no file on the way to a path, or the first one.
* `mkdirs`, `put`, `remove`: what is at each path after the change of one.
* `Closed`: what is in a tree is in directories.
-/

namespace Support

/-- What a path leads to. -/
inductive FileNode (β : Type) where
  | dir
  | file (content : β)
  deriving DecidableEq, Repr

/-- The content changed, if there is one. -/
def FileNode.map {β γ : Type} (f : β → γ) : FileNode β → FileNode γ
  | dir => dir
  | file content => file (f content)

abbrev FileTree (α β : Type) := List α → Option (FileNode β)

namespace FileTree
variable {α β γ : Type} {t : FileTree α β} {p q r : List α}

/-- Nothing but the root. -/
def root : FileTree α β
  | [] => some .dir
  | _ :: _ => none

/-- No file on the way to `p`, nor at it. -/
def Clear (t : FileTree α β) (p : List α) : Prop := ∀ q c, q <+: p → t q ≠ some (.file c)

/-- The first file on the way to `p`, or at it. -/
structure FirstFile (t : FileTree α β) (p q : List α) : Prop where
  on : q <+: p
  file : ∃ c, t q = some (.file c)
  first : ∀ r c, r <+: p → t r = some (.file c) → q <+: r

/-- What is in the tree is in a directory. -/
structure Closed (t : FileTree α β) : Prop where
  root : t [] = some .dir
  parent : ∀ p a, t (p ++ [a]) ≠ none → t p = some .dir

/-- Either no file is on the way, or there is a first one. -/
theorem clear_or_firstFile (t : FileTree α β) (p : List α) : t.Clear p ∨ ∃ q, t.FirstFile p q := by
  induction p using List.reverseRecOn with
  | nil =>
      by_cases h : ∃ c, t [] = some (.file c)
      · exact .inr ⟨[], List.nil_prefix, h, fun _ _ _ _ => List.nil_prefix⟩
      · refine .inl fun q c hq hc => h ⟨c, ?_⟩
        rwa [List.prefix_nil.mp hq] at hc
  | append_singleton p a ih =>
      rcases ih with ih | ⟨q, h⟩
      · by_cases h : ∃ c, t (p ++ [a]) = some (.file c)
        · refine .inr ⟨_, List.prefix_rfl, h, fun r c hr hc => ?_⟩
          rcases List.prefix_concat_iff.mp hr with rfl | hr
          · exact List.prefix_rfl
          · exact absurd hc (ih r c hr)
        · refine .inl fun q c hq hc => ?_
          rcases List.prefix_concat_iff.mp hq with rfl | hq
          · exact h ⟨c, hc⟩
          · exact ih q c hq hc
      · refine .inr ⟨q, h.on.trans (List.prefix_append _ _), h.file, fun r c hr hc => ?_⟩
        rcases List.prefix_concat_iff.mp hr with rfl | hr
        · exact h.on.trans (List.prefix_append _ _)
        · exact h.first r c hr hc

namespace Closed

/-- Above an entry there are directories only. -/
theorem above (h : t.Closed) (hq : t q ≠ none) (hp : p <+: q) (hne : p ≠ q) :
    t p = some .dir := by
  induction q using List.reverseRecOn with
  | nil => exact absurd (List.prefix_nil.mp hp) hne
  | append_singleton q a ih =>
      have hdir := h.parent q a hq
      rcases List.prefix_concat_iff.mp hp with rfl | hp
      · exact absurd rfl hne
      · by_cases e : p = q
        · rw [e, hdir]
        · exact ih (by rw [hdir]; exact Option.some_ne_none _) hp e

/-- No file is on the way to a directory. -/
theorem clear (h : t.Closed) (hp : t p = some .dir) : t.Clear p := by
  intro q c hq hc
  have hdir : t q = some .dir := by
    by_cases e : q = p
    · rw [e, hp]
    · exact h.above (by rw [hp]; exact Option.some_ne_none _) hq e
  rw [hc] at hdir
  cases hdir

/-- A directory that something is below has an entry. -/
theorem entry (h : t.Closed) {a : α} (hq : t (p ++ a :: q) ≠ none) : t (p ++ [a]) ≠ none := by
  cases q with
  | nil => exact hq
  | cons b q =>
      rw [h.above hq ⟨b :: q, by simp⟩ (by simp)]
      exact Option.some_ne_none _

end Closed

/-! ### Changes -/

section
variable [DecidableEq α]

/-- A directory at `p`, and all those above it. -/
def mkdirs (t : FileTree α β) (p : List α) : FileTree α β := fun q =>
  if q <+: p then some .dir else t q

/-- A file at `p`, and the directories above it. -/
def put (t : FileTree α β) (p : List α) (content : β) : FileTree α β :=
  Function.update (t.mkdirs p.dropLast) p (some (.file content))

/-- Nothing at `p`. -/
def remove (t : FileTree α β) (p : List α) : FileTree α β := Function.update t p none

/-- The contents changed. -/
def map (f : β → γ) (t : FileTree α β) : FileTree α γ := fun q => (t q).map (FileNode.map f)

omit [DecidableEq α] in
theorem map_eq_dir {f : β → γ} : t.map f p = some .dir ↔ t p = some .dir := by
  unfold map
  rcases t p with _ | ⟨_ | _⟩ <;> simp [FileNode.map]

omit [DecidableEq α] in
theorem map_eq_none {f : β → γ} : t.map f p = none ↔ t p = none := Option.map_eq_none_iff

omit [DecidableEq α] in
theorem map_eq_file {f : β → γ} {c : γ} :
    t.map f p = some (.file c) ↔ ∃ b, t p = some (.file b) ∧ f b = c := by
  unfold map
  rcases t p with _ | ⟨_ | b⟩ <;> simp [FileNode.map]

omit [DecidableEq α] in
theorem clear_map {f : β → γ} : (t.map f).Clear p ↔ t.Clear p := by
  constructor
  · exact fun h q c hq hc => h q (f c) hq (map_eq_file.mpr ⟨c, hc, rfl⟩)
  · intro h q c hq hc
    obtain ⟨b, hb, -⟩ := map_eq_file.mp hc
    exact h q b hq hb

omit [DecidableEq α] in
theorem FirstFile.map {f : β → γ} (h : t.FirstFile p q) : (t.map f).FirstFile p q where
  on := h.on
  file := by
    obtain ⟨c, hc⟩ := h.file
    exact ⟨f c, map_eq_file.mpr ⟨c, hc, rfl⟩⟩
  first := by
    intro r c hr hc
    obtain ⟨b, hb, -⟩ := map_eq_file.mp hc
    exact h.first r b hr hb

omit [DecidableEq α] in
theorem Clear.mono (h : t.Clear p) (hq : q <+: p) : t.Clear q := fun r c hr =>
  h r c (hr.trans hq)

/-- A directory more is in nobody's way. -/
theorem Clear.update_dir (h : t.Clear p) (q : List α) :
    Clear (Function.update t q (some .dir)) p := by
  intro r c hr
  by_cases e : r = q
  · subst e
    rw [Function.update_self]
    simp
  · rw [Function.update_of_ne e]
    exact h r c hr

theorem mkdirs_update_dir (hq : q <+: p) :
    mkdirs (Function.update t q (some .dir)) p = t.mkdirs p := by
  funext r
  unfold mkdirs
  split
  · rfl
  · next hr =>
      refine Function.update_of_ne ?_ _ _
      rintro rfl
      exact hr hq

/-- A directory that is there is not made again. -/
theorem Closed.mkdirs_eq (h : t.Closed) (hp : t p = some .dir) : t.mkdirs p = t := by
  funext q
  unfold mkdirs
  split
  · next hq =>
      by_cases e : q = p
      · rw [e, hp]
      · exact (h.above (by rw [hp]; exact Option.some_ne_none _) hq e).symm
  · rfl

omit [DecidableEq α] in
theorem Closed.map {f : β → γ} (h : t.Closed) : (t.map f).Closed where
  root := map_eq_dir.mpr h.root
  parent := fun p a hne => map_eq_dir.mpr (h.parent p a (mt map_eq_none.mpr hne))

theorem map_mkdirs (f : β → γ) (t : FileTree α β) (p : List α) :
    (t.mkdirs p).map f = (t.map f).mkdirs p := by
  funext q
  unfold map mkdirs
  split <;> rfl

theorem map_put (f : β → γ) (t : FileTree α β) (p : List α) (c : β) :
    (t.put p c).map f = (t.map f).put p (f c) := by
  unfold put
  rw [← map_mkdirs]
  funext q
  by_cases hq : q = p
  · subst hq
    simp only [map, Function.update_self]
    rfl
  · simp only [map, Function.update_of_ne hq]

theorem map_remove (f : β → γ) (t : FileTree α β) (p : List α) :
    (t.remove p).map f = (t.map f).remove p := by
  funext q
  by_cases hq : q = p
  · subst hq
    simp only [map, remove, Function.update_self]
    rfl
  · simp only [map, remove, Function.update_of_ne hq]

omit [DecidableEq α] in
/-- The contents there are decide. -/
theorem map_congr {f g : β → γ} (h : ∀ p b, t p = some (.file b) → f b = g b) :
    t.map f = t.map g := by
  funext p
  unfold map
  cases hp : t p with
  | none => rfl
  | some n =>
      cases n with
      | dir => rfl
      | file b => exact congrArg (fun c => some (FileNode.file c)) (h p b hp)

end

end FileTree

end Support
