import Space.Views.NfsTree

/-!
# Views — NfsPaths

The canonical form of a path.  Read from left to right on a stack (`resolve`), a path names what it
names; `normalizePath` splits it at `/` alone, and only then turns the backslashes of a piece into
separators.

* `canonicalPath_of_no_backslash`: a path without a backslash has its canonical form.
* `not_canonicalPath`: one with a backslash does not, unless the piece it is in is taken back.
* `normalizePath_canonical_iff`: every beginning of a path has its canonical form if and only if
  there is no backslash in the path.
-/

namespace Space
open Support Paths

variable {p q : Text}

/-! ### The stack -/

/-- What one segment does to those before it. -/
def resolveStep (stack : List Text) (segment : Text) : List Text :=
  if segment = [] ∨ segment = ['.'] then stack
  else if segment = ['.', '.'] then stack.dropLast
  else stack ++ [segment]

/-- The segments of a path, with both separators, on a stack. -/
def resolve (path : Text) : List Text :=
  ((replaceBackslash path).splitOn '/').foldl resolveStep []

/-- The path has its canonical form. -/
structure CanonicalPath (p : Text) : Prop where
  names : ∀ c ∈ (normalizePath p).components, c ≠ [] ∧ c ≠ ['.'] ∧ c ≠ ['.', '.'] ∧ '/' ∉ c
  full : (normalizePath p).full = '/' :: ['/'].intercalate (normalizePath p).components
  fixed : normalizePath (normalizePath p).full = normalizePath p
  resolved : (normalizePath p).components = resolve p

/-! ### The pieces -/

/-- What a piece between two slashes is read as. -/
def pieceComponent (piece : Text) : Option Component :=
  if piece = [] ∨ piece = ['.'] then none
  else if piece = ['.', '.'] then some .parentDir
  else some (.normal piece)

/-- The first component of a path changes nothing. -/
theorem components_normalizePath (p : Text) : (normalizePath p).components =
    ((p.splitOn '/').filterMap pieceComponent).foldl normalizeStep [] := by
  have hrest : ∀ candidate : Text, (pathComponents candidate).foldl normalizeStep [] =
      ((candidate.splitOn '/').filterMap pieceComponent).foldl normalizeStep [] := by
    intro candidate
    show List.foldl _ _ ((if _ then _ else if _ then _ else _) ++ _) = _
    rw [List.foldl_append]
    split
    · rfl
    · split <;> rfl
  by_cases hp : p = []
  · subst hp
    decide
  · show ((pathComponents (if p = [] then ['/'] else p)).foldl normalizeStep []) = _
    rw [if_neg hp, hrest]

theorem foldl_pieces {pieces : List Text} (h : ∀ piece ∈ pieces, '\\' ∉ piece)
    (stack : List Text) : (pieces.filterMap pieceComponent).foldl normalizeStep stack =
      pieces.foldl resolveStep stack := by
  induction pieces generalizing stack with
  | nil => rfl
  | cons piece pieces ih =>
      have ih := ih fun piece hp => h piece (List.mem_cons_of_mem _ hp)
      rw [List.foldl_cons, ← ih, List.filterMap_cons, pieceComponent, resolveStep]
      by_cases h₁ : piece = [] ∨ piece = ['.']
      · simp only [if_pos h₁]
      · by_cases h₂ : piece = ['.', '.']
        · simp only [if_neg h₁, if_pos h₂, List.foldl_cons]
          rfl
        · have hb := replaceBackslash_eq (h piece List.mem_cons_self)
          simp only [if_neg h₁, if_neg h₂, List.foldl_cons, normalizeStep, hb]
          rw [if_neg fun e => h₁ (.inl e)]

theorem names_foldl_resolveStep {pieces stack : List Text} (hs : Names stack)
    (h : ∀ piece ∈ pieces, '/' ∉ piece ∧ '\\' ∉ piece) :
    Names (pieces.foldl resolveStep stack) := by
  induction pieces generalizing stack with
  | nil => exact hs
  | cons piece pieces ih =>
      refine ih ?_ fun piece hp => h piece (List.mem_cons_of_mem _ hp)
      obtain ⟨hslash, hback⟩ := h piece List.mem_cons_self
      unfold resolveStep
      split
      · exact hs
      · next h₁ =>
          split
          · exact fun c hc => hs c (List.dropLast_subset _ hc)
          · next h₂ =>
              refine names_append.mpr ⟨hs, names_singleton.mpr ⟨?_, hslash, hback, ?_, h₂⟩⟩
              · exact fun e => h₁ (.inl e)
              · exact fun e => h₁ (.inr e)

/-- **A path without a backslash.** -/
theorem canonicalPath_of_no_backslash (h : '\\' ∉ p) : CanonicalPath p := by
  have hpieces : ∀ piece ∈ p.splitOn '/', '/' ∉ piece ∧ '\\' ∉ piece := fun piece hp =>
    ⟨(mem_splitOn hp).1, fun hb => h ((mem_splitOn hp).2 _ hb)⟩
  have hcomp : (normalizePath p).components = (p.splitOn '/').foldl resolveStep [] := by
    rw [components_normalizePath, foldl_pieces fun piece hp => (hpieces piece hp).2]
  have hnames : Names (normalizePath p).components :=
    hcomp ▸ names_foldl_resolveStep names_nil hpieces
  refine ⟨fun c hc => ?_, ?_, ?_, ?_⟩
  · obtain ⟨h₁, h₂, -, h₃, h₄⟩ := hnames c hc
    exact ⟨h₁, h₃, h₄, h₂⟩
  · rw [(normalizePath p).full_eq, fullPath]
    split
    · next hnil =>
        rw [hnil]
        rfl
    · rfl
  · rw [(normalizePath p).full_eq, normalizePath_fullPath hnames]
    rfl
  · rw [hcomp, resolve, replaceBackslash_eq h]

/-! ### Backslashes -/

/-- A component stays if no piece after it takes one back. -/
theorem mem_foldl_normalizeStep {pieces stack : List Text} {c : Text}
    (h : ['.', '.'] ∉ pieces) (hc : c ∈ stack) :
    c ∈ (pieces.filterMap pieceComponent).foldl normalizeStep stack := by
  induction pieces generalizing stack with
  | nil => exact hc
  | cons piece pieces ih =>
      have hrest : ['.', '.'] ∉ pieces := fun hm => h (List.mem_cons_of_mem _ hm)
      rw [List.filterMap_cons, pieceComponent]
      by_cases h₁ : piece = [] ∨ piece = ['.']
      · simp only [if_pos h₁]
        exact ih hrest hc
      · have h₂ : piece ≠ ['.', '.'] := fun e => h (e ▸ List.mem_cons_self)
        simp only [if_neg h₁, if_neg h₂, List.foldl_cons]
        refine ih hrest ?_
        show c ∈ (if replaceBackslash piece = [] then stack else stack ++ [replaceBackslash piece])
        split
        · exact hc
        · exact List.mem_append_left _ hc

/-- **A piece with a backslash that is not taken back** is a component with a slash in it. -/
theorem not_canonicalPath {front rear : List Text} {piece : Text}
    (hp : p.splitOn '/' = front ++ piece :: rear) (hb : '\\' ∈ piece) (hr : ['.', '.'] ∉ rear) :
    ¬ CanonicalPath p := by
  intro h
  have hslash : '/' ∈ replaceBackslash piece := List.mem_map.mpr ⟨_, hb, if_pos rfl⟩
  have hne : ∀ t : Text, '\\' ∉ t → piece ≠ t := fun t ht e => ht (e ▸ hb)
  refine (h.names (replaceBackslash piece) ?_).2.2.2 hslash
  rw [components_normalizePath, hp, List.filterMap_append, List.foldl_append, List.filterMap_cons,
    pieceComponent]
  simp only [if_neg (not_or.mpr ⟨hne [] (by decide), hne ['.'] (by decide)⟩),
    if_neg (hne ['.', '.'] (by decide)), List.foldl_cons, normalizeStep]
  refine mem_foldl_normalizeStep hr ?_
  rw [if_neg (List.ne_nil_of_mem hslash)]
  exact List.mem_append_right _ (List.mem_singleton_self _)

/-- **The canonical form of a path.**  A path without a backslash has it; a path with a backslash
in a piece that no piece `..` follows has not; and every beginning of a path has it if and only if
there is no backslash in the path. -/
theorem normalizePath_canonical_iff (p : Text) :
    ('\\' ∉ p → CanonicalPath p) ∧
    (∀ front piece rear, p.splitOn '/' = front ++ piece :: rear → ['.', '.'] ∉ rear →
      '\\' ∈ piece → ¬ CanonicalPath p) ∧
    ((∀ q, q <+: p → CanonicalPath q) ↔ '\\' ∉ p) := by
  refine ⟨canonicalPath_of_no_backslash, fun _ _ _ hp hr hb => not_canonicalPath hp hb hr,
    fun h hb => ?_, fun h q hq => canonicalPath_of_no_backslash fun hb => h (hq.subset hb)⟩
  -- the beginning that ends with the backslash
  obtain ⟨r, t, rfl⟩ := List.append_of_mem hb
  have hne : '\\' ≠ '/' := by decide
  obtain ⟨front, piece, -, hsplit⟩ := splitOn_snoc hne r
  refine not_canonicalPath hsplit (List.mem_append_right _ (List.mem_singleton_self _))
    List.not_mem_nil (h (r ++ ['\\']) ⟨t, ?_⟩)
  rw [List.append_assoc]
  rfl

/-- A component that leads out of the root, read again. -/
theorem not_normalizePath_canonical : ¬ ∀ p : Text, CanonicalPath p := by
  intro h
  exact ((h "a\\..\\..".toList).names "a/../..".toList (by decide)).2.2.2 (by decide)

end Space
