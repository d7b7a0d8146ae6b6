import Space.Codec.Stored
import Space.Support.Protocol
import Space.Views.Nfs

/-!
# Views — NfsTree

The namespace of the file view is a tree (`Namespace.Tree`) in every state that clients reach, as
long as no file is inserted over the entries of a directory (`nfs_tree`).  A file that is inserted
there is what goes wrong, and a `mkdir` between the check of a write and its insertion is enough
for it (`not_nfs_tree`).

The proofs are about `Namespace.WellFormed`, which speaks of components instead of texts.
-/

namespace Space
open Support Prog Paths

/-! ### Canonical paths -/

/-- A component of a canonical path. -/
def IsName (c : Text) : Prop :=
  c ≠ [] ∧ '/' ∉ c ∧ '\\' ∉ c ∧ c ≠ ['.'] ∧ c ≠ ['.', '.']

/-- The components of a canonical path. -/
def Names (cs : List Text) : Prop := ∀ c ∈ cs, IsName c

theorem Names.plain {cs : List Text} (h : Names cs) : Plain '/' cs := fun c hc => (h c hc).2.1

theorem names_append {cs ds : List Text} : Names (cs ++ ds) ↔ Names cs ∧ Names ds :=
  List.forall_mem_append

theorem names_singleton {c : Text} : Names [c] ↔ IsName c := List.forall_mem_singleton

theorem names_nil : Names [] := fun _ h => absurd h List.not_mem_nil

theorem fullPath_nil : fullPath [] = ['/'] := rfl

theorem fullPath_of_ne_nil {cs : List Text} (h : cs ≠ []) : fullPath cs = slashed '/' cs := by
  unfold fullPath
  rw [if_neg h, cons_intercalate h]

theorem fullPath_snoc (cs : List Text) (c : Text) :
    fullPath (cs ++ [c]) = slashed '/' (cs ++ [c]) := fullPath_of_ne_nil (by simp)

/-- The loop of `ensure_directory` spells its paths in the same way. -/
theorem cons_intercalate_snoc (cs : List Text) (c : Text) :
    '/' :: ['/'].intercalate (cs ++ [c]) = fullPath (cs ++ [c]) := by
  rw [fullPath_snoc, cons_intercalate (by simp)]

theorem fullPath_injective {cs ds : List Text} (hc : Names cs) (hd : Names ds)
    (h : fullPath cs = fullPath ds) : cs = ds := by
  have root : ∀ {cs : List Text}, Names cs → fullPath cs = ['/'] → cs = [] := by
    intro cs hc h
    cases cs with
    | nil => rfl
    | cons c cs =>
        rw [fullPath_of_ne_nil (List.cons_ne_nil _ _), slashed_cons] at h
        simp only [List.cons_append, List.cons.injEq, true_and, List.append_eq_nil_iff] at h
        exact absurd h.1 (hc c List.mem_cons_self).1
  by_cases hc0 : cs = []
  · subst hc0
    exact (root hd h.symm).symm
  by_cases hd0 : ds = []
  · subst hd0
    exact root hc h
  rw [fullPath_of_ne_nil hc0, fullPath_of_ne_nil hd0] at h
  exact slashed_injective hc.plain hd.plain h

theorem fullPath_ne_root {cs : List Text} {c : Text} (h : Names (cs ++ [c])) :
    fullPath (cs ++ [c]) ≠ ['/'] := fun e => by
  simpa using fullPath_injective h names_nil (e.trans fullPath_nil.symm)

theorem replaceBackslash_eq {c : Text} (h : '\\' ∉ c) : replaceBackslash c = c := by
  have hid : ∀ x ∈ c, (if x = '\\' then '/' else x) = id x := by
    intro x hx
    refine if_neg fun e => h ?_
    rwa [← e]
  exact (List.map_congr_left hid).trans (List.map_id _)

/-- A component of a canonical path, read again. -/
theorem normalizeStep_name {cs : List Text} {c : Text} (h : IsName c) :
    normalizeStep cs (.normal c) = cs ++ [c] := by
  show (if replaceBackslash c = [] then cs else cs ++ [replaceBackslash c]) = _
  rw [replaceBackslash_eq h.2.2.1, if_neg h.1]

theorem foldl_normalizeStep {cs ds : List Text} (h : Names ds) :
    (ds.map Component.normal).foldl normalizeStep cs = cs ++ ds := by
  induction ds generalizing cs with
  | nil => simp
  | cons d ds ih =>
      rw [List.map_cons, List.foldl_cons, normalizeStep_name (h d List.mem_cons_self),
        ih fun c hc => h c (List.mem_cons_of_mem _ hc), List.append_assoc]
      rfl

theorem pathComponents_fullPath {cs : List Text} (h : Names cs) :
    pathComponents (fullPath cs) = .rootDir :: cs.map .normal := by
  by_cases h0 : cs = []
  · subst h0
    decide
  obtain ⟨d, ds, rfl⟩ := List.exists_cons_of_ne_nil h0
  have hsplit : (fullPath (d :: ds)).splitOn '/' = [] :: d :: ds := by
    rw [fullPath_of_ne_nil h0, ← cons_intercalate h0]
    have hsep : ∀ l ∈ [] :: d :: ds, '/' ∉ l := by
      intro l hl
      rcases List.mem_cons.mp hl with rfl | hl
      · exact List.not_mem_nil
      · exact h.plain l hl
    exact List.splitOn_intercalate '/' hsep (List.cons_ne_nil _ _)
  have hhead : (fullPath (d :: ds)).head? = some '/' := by
    rw [fullPath_of_ne_nil h0]
    rfl
  have hpieces : ∀ c ∈ d :: ds, (if c = [] ∨ c = ['.'] then none
      else if c = ['.', '.'] then some Component.parentDir else some (.normal c)) =
      some (Component.normal c) := by
    intro c hc
    obtain ⟨h₁, -, -, h₂, h₃⟩ := h c hc
    rw [if_neg (by simp [h₁, h₂]), if_neg h₃]
  unfold pathComponents
  simp only [hsplit, hhead, if_true, List.cons_append, List.nil_append]
  refine congrArg (Component.rootDir :: ·) ?_
  rw [List.filterMap_cons_none (by simp), List.filterMap_congr hpieces]
  exact congrFun (List.filterMap_eq_map' (f := Component.normal)) _

/-- **A canonical path is its own canonical form.** -/
theorem normalizePath_fullPath {cs : List Text} (h : Names cs) :
    normalizePath (fullPath cs) = .ofComponents cs := by
  have hne : fullPath cs ≠ [] := by
    unfold fullPath
    split <;> exact List.cons_ne_nil _ _
  unfold normalizePath
  simp only [if_neg hne]
  rw [pathComponents_fullPath h, List.foldl_cons, foldl_normalizeStep h]
  rfl

/-- What is left of a component when its backslashes are replaced. -/
theorem name_replaceBackslash {p : Text} (h : p ≠ ['.'] ∧ p ≠ ['.', '.'])
    (h0 : replaceBackslash p ≠ []) (hs : '/' ∉ replaceBackslash p) :
    IsName (replaceBackslash p) := by
  -- nothing was replaced
  have hp : '\\' ∉ p := fun k => hs (List.mem_map.mpr ⟨_, k, if_pos rfl⟩)
  rw [replaceBackslash_eq hp] at h0 hs ⊢
  exact ⟨h0, hs, hp, h.1, h.2⟩

theorem pathComponents_normal {path p : Text} (h : .normal p ∈ pathComponents path) :
    p ≠ ['.'] ∧ p ≠ ['.', '.'] := by
  unfold pathComponents at h
  rcases List.mem_append.mp h with h | h
  · split at h
    · cases List.mem_singleton.mp h
    · split at h
      · cases List.mem_singleton.mp h
      · cases h
  · obtain ⟨piece, -, hpiece⟩ := List.mem_filterMap.mp h
    split at hpiece
    · cases hpiece
    · next h₁ =>
        split at hpiece
        · cases hpiece
        · next h₂ =>
            cases hpiece
            exact ⟨fun e => h₁ (.inr e), h₂⟩

/-- **The components of any path are names**, once they have no separator inside. -/
theorem names_normalizePath {path : Text} (h : Plain '/' (normalizePath path).components) :
    Names (normalizePath path).components := by
  have keep : ∀ (l : List Component) (acc : List Text),
      (∀ c ∈ acc, '/' ∉ c → IsName c) → (∀ p, .normal p ∈ l → p ≠ ['.'] ∧ p ≠ ['.', '.']) →
      ∀ c ∈ l.foldl normalizeStep acc, '/' ∉ c → IsName c := by
    intro l
    induction l with
    | nil => exact fun _ hacc _ => hacc
    | cons x l ih =>
        intro acc hacc hl
        refine ih _ ?_ fun p hp => hl p (List.mem_cons_of_mem _ hp)
        cases x with
        | rootDir => exact fun c hc => absurd hc List.not_mem_nil
        | curDir => exact hacc
        | parentDir => exact fun c hc => hacc c (List.dropLast_subset _ hc)
        | normal p =>
            show ∀ c ∈ (if replaceBackslash p = [] then acc else acc ++ [replaceBackslash p]), _
            split
            · exact hacc
            · next h0 =>
                intro c hc hs
                rcases List.mem_append.mp hc with hc | hc
                · exact hacc c hc hs
                · obtain rfl := List.mem_singleton.mp hc
                  exact name_replaceBackslash (hl p List.mem_cons_self) h0 hs
  intro c hc
  exact keep _ [] (fun _ k => absurd k List.not_mem_nil) (fun p hp => pathComponents_normal hp)
    c hc (h c hc)

theorem ofComponents_parentPath (cs : List Text) (c : Text) :
    (NormalizedPath.ofComponents (cs ++ [c])).parentPath = some (fullPath cs) := by
  unfold NormalizedPath.parentPath NormalizedPath.ofComponents
  simp only [List.append_eq_nil_iff, List.cons_ne_nil, and_false, if_false, List.length_append,
    List.length_singleton, List.dropLast_concat]
  cases cs with
  | nil => rfl
  | cons d cs => rfl

theorem ofComponents_name (cs : List Text) (c : Text) :
    (NormalizedPath.ofComponents (cs ++ [c])).name = some c := List.getLast?_concat

/-! ### Trees -/

namespace Namespace
variable {nodes : Namespace} {cs : List Text} {c : Text} {n : NfsNode} {now : Nat}

/-- The entries of the nodes whose parent path is `dir`. -/
def children (nodes : Namespace) (dir : Text) : List NfsEntry :=
  (nodes.entries.filter fun e => decide ((normalizePath e.1).parentPath = some dir)).map
    fun e => e.2.toEntry

/-- The namespace is a tree, and a listing shows it. -/
structure Tree (nodes : Namespace) : Prop where
  root : ∃ n, nodes.lookup ['/'] = some n ∧ n.isDirectory = true
  parent : ∀ key n, nodes.lookup key = some n → key ≠ ['/'] → ∃ dir d,
    (normalizePath key).parentPath = some dir ∧ nodes.lookup dir = some d ∧ d.isDirectory = true
  path : ∀ key n, nodes.lookup key = some n → n.path = key
  name : ∀ key n, nodes.lookup key = some n → key ≠ ['/'] →
    (normalizePath key).full = key ∧ (normalizePath key).name = some n.name
  listing : ∀ key n, nodes.lookup key = some n → n.isDirectory = true →
    ∃ entries, nodes.listDirectory key = .ok entries ∧ entries.Perm (nodes.children key)

/-- A directory of the namespace. -/
def IsDir (nodes : Namespace) (key : Text) : Prop :=
  ∃ n, nodes.lookup key = some n ∧ n.isDirectory = true

/-- No entry has `key` for its directory. -/
def Childless (nodes : Namespace) (cs : List Text) : Prop :=
  ∀ c, IsName c → nodes.lookup (fullPath (cs ++ [c])) = none

/-- The same, of components. -/
structure WellFormed (nodes : Namespace) : Prop where
  root : nodes.IsDir ['/']
  node : ∀ key n, nodes.lookup key = some n → n.path = key ∧
    (key = ['/'] ∨ ∃ cs c, Names (cs ++ [c]) ∧ key = fullPath (cs ++ [c]) ∧ n.name = c ∧
      nodes.IsDir (fullPath cs))

namespace WellFormed

/-- **A node is put in its place**: under a directory, and in the place of a directory with
entries only if it is one itself. -/
theorem insert (h : nodes.WellFormed) (hcs : Names (cs ++ [c])) (hp : nodes.IsDir (fullPath cs))
    (hpath : n.path = fullPath (cs ++ [c])) (hname : n.name = c)
    (hd : n.isDirectory = true ∨ nodes.Childless (cs ++ [c])) :
    WellFormed (nodes.insert (fullPath (cs ++ [c])) n) where
  root := by
    obtain ⟨r, hr, hrd⟩ := h.root
    exact ⟨r, by rw [Table.lookup_insert, if_neg (fullPath_ne_root hcs).symm, hr], hrd⟩
  node := by
    -- a directory that something is in is still one
    have keep : ∀ ds d, Names (ds ++ [d]) → nodes.lookup (fullPath (ds ++ [d])) ≠ none →
        nodes.IsDir (fullPath ds) →
        IsDir (nodes.insert (fullPath (cs ++ [c])) n) (fullPath ds) := by
      intro ds d hds hin ⟨m, hm, hmd⟩
      unfold IsDir
      rw [Table.lookup_insert]
      split
      · next e =>
          rcases hd with hd | hd
          · exact ⟨n, rfl, hd⟩
          · obtain rfl := fullPath_injective (names_append.mp hds).1 hcs e
            exact absurd (hd d (names_singleton.mp (names_append.mp hds).2)) hin
      · exact ⟨m, hm, hmd⟩
    intro key m hm
    rcases Table.lookup_insert_eq_some.mp hm with ⟨rfl, rfl⟩ | ⟨-, hm⟩
    · refine ⟨hpath, .inr ⟨cs, c, hcs, rfl, hname, ?_⟩⟩
      obtain ⟨d, hd', hdd⟩ := hp
      refine ⟨d, ?_, hdd⟩
      rw [Table.lookup_insert, if_neg, hd']
      intro e
      simpa using fullPath_injective (names_append.mp hcs).1 hcs e
    · obtain ⟨e, hk⟩ := h.node key m hm
      refine ⟨e, hk.imp_right ?_⟩
      rintro ⟨ds, d, hds, rfl, hn, hdir⟩
      exact ⟨ds, d, hds, rfl, hn, keep ds d hds (by rw [hm]; exact Option.some_ne_none _) hdir⟩

/-- Nothing but the time of a node changes. -/
theorem retime (h : nodes.WellFormed) {key : Text} (hn : nodes.lookup key = some n) :
    WellFormed (nodes.insert key { n with modifiedAt := now }) := by
  have keep : ∀ k, nodes.IsDir k →
      IsDir (nodes.insert key { n with modifiedAt := now }) k := by
    rintro k ⟨m, hm, hmd⟩
    unfold IsDir
    rw [Table.lookup_insert]
    split
    · next e =>
        subst e
        rw [hm] at hn
        cases hn
        exact ⟨_, rfl, hmd⟩
    · exact ⟨m, hm, hmd⟩
  refine ⟨keep _ h.root, fun k m hm => ?_⟩
  obtain ⟨m', hm', hpath, hname⟩ : ∃ m', nodes.lookup k = some m' ∧ m'.path = m.path ∧
      m'.name = m.name := by
    rcases Table.lookup_insert_eq_some.mp hm with ⟨rfl, rfl⟩ | ⟨-, hm⟩
    · exact ⟨n, hn, rfl, rfl⟩
    · exact ⟨m, hm, rfl, rfl⟩
  obtain ⟨e, hk⟩ := h.node k m' hm'
  refine ⟨hpath ▸ e, hk.imp_right ?_⟩
  rintro ⟨ds, d, hds, e, hd, hdir⟩
  exact ⟨ds, d, hds, e, hname ▸ hd, keep _ hdir⟩

/-- **A node without entries is taken away.** -/
theorem erase (h : nodes.WellFormed) (hcs : Names (cs ++ [c]))
    (hd : nodes.Childless (cs ++ [c])) : WellFormed (nodes.erase (fullPath (cs ++ [c]))) where
  root := by
    obtain ⟨r, hr, hrd⟩ := h.root
    exact ⟨r, by rw [Table.lookup_erase, if_neg (fullPath_ne_root hcs).symm, hr], hrd⟩
  node := by
    intro key m hm
    obtain ⟨hne, hm⟩ := Table.lookup_erase_eq_some.mp hm
    obtain ⟨e, hk⟩ := h.node key m hm
    refine ⟨e, hk.imp_right ?_⟩
    rintro ⟨ds, d, hds, rfl, hn, p, hp, hpd⟩
    refine ⟨ds, d, hds, rfl, hn, p, ?_, hpd⟩
    rw [Table.lookup_erase, if_neg, hp]
    intro e'
    obtain rfl := fullPath_injective (names_append.mp hds).1 hcs e'
    rw [hd d (names_singleton.mp (names_append.mp hds).2)] at hm
    cases hm

/-- Only directories have entries. -/
theorem childless (h : nodes.WellFormed) (hcs : Names cs) (hf : ¬ nodes.IsDir (fullPath cs)) :
    nodes.Childless cs := by
  intro c hc
  by_contra hn
  obtain ⟨m, hm⟩ := Option.ne_none_iff_exists'.mp hn
  have hcc : Names (cs ++ [c]) := names_append.mpr ⟨hcs, names_singleton.mpr hc⟩
  rcases (h.node _ m hm).2 with e | ⟨ds, d, hds, e, -, hdir⟩
  · exact fullPath_ne_root hcc e
  · obtain rfl := (List.append_inj' (fullPath_injective hcc hds e) rfl).1
    exact hf hdir

end WellFormed

/-- No entry below a path, so none in it. -/
theorem childless_of_no_prefix (hcs : cs ≠ []) (h : ∀ key ∈ nodes, ¬ fullPath cs ++ ['/'] <+: key) :
    nodes.Childless cs := by
  intro d hd
  refine Table.lookup_eq_none.mpr fun k => h _ k ?_
  rw [fullPath_of_ne_nil hcs, fullPath_snoc, slashed_snoc]
  exact ⟨d, by simp⟩

/-! ### Listings -/

/-- A directory is `/` or in another one. -/
theorem WellFormed.names (h : nodes.WellFormed) {key : Text} (hn : nodes.lookup key = some n) :
    ∃ cs, Names cs ∧ key = fullPath cs := by
  rcases (h.node key n hn).2 with rfl | ⟨cs, c, hcs, e, -, -⟩
  · exact ⟨[], names_nil, rfl⟩
  · exact ⟨_, hcs, e⟩

/-- The prefix a listing looks for. -/
theorem listing_prefix (cs : List Text) :
    (if (NormalizedPath.ofComponents cs).isRoot then ['/'] else fullPath cs ++ ['/']) =
      slashed '/' cs ++ ['/'] := by
  cases cs with
  | nil => rfl
  | cons c cs =>
      rw [← fullPath_of_ne_nil (List.cons_ne_nil _ _)]
      rfl

/-- The keys a listing keeps. -/
theorem listed_iff {ds : List Text} (hc : Names cs) (hd : Names ds) :
    (fullPath ds ≠ fullPath cs ∧ slashed '/' cs ++ ['/'] <+: fullPath ds ∧
      (fullPath ds).drop (slashed '/' cs ++ ['/']).length ≠ [] ∧
      '/' ∉ (fullPath ds).drop (slashed '/' cs ++ ['/']).length) ↔
    (NormalizedPath.ofComponents ds).parentPath = some (fullPath cs) := by
  rcases List.eq_nil_or_concat ds with rfl | ⟨ds, d, rfl⟩
  · constructor
    · rintro ⟨-, -, hne, -⟩
      exact absurd (List.drop_eq_nil_of_le (by simp [fullPath_nil])) hne
    · intro h
      cases h
  rw [List.concat_eq_append] at hd ⊢
  rw [ofComponents_parentPath, Option.some.injEq]
  constructor
  · rintro ⟨-, hp, -, hrem⟩
    rw [fullPath_snoc] at hp hrem
    obtain ⟨x, xs, e⟩ := (slashed_sep_start hc.plain hd.plain).mp hp
    have hsplit : slashed '/' (cs ++ x :: xs) =
        (slashed '/' cs ++ ['/']) ++ (x ++ slashed '/' xs) := by
      rw [slashed_append, slashed_cons]
      simp
    rw [e, hsplit, List.drop_left] at hrem
    -- one more name would bring one more separator
    have hxs : xs = [] := by
      cases xs with
      | nil => rfl
      | cons y ys => exact absurd (List.mem_append_right _ List.mem_cons_self) hrem
    rw [hxs] at e
    rw [(List.append_inj' e rfl).1]
  · intro e
    obtain rfl := fullPath_injective (names_append.mp hd).1 hc e
    have hdn := names_singleton.mp (names_append.mp hd).2
    have hsnoc : fullPath (ds ++ [d]) = (slashed '/' ds ++ ['/']) ++ d := by
      rw [fullPath_snoc, slashed_snoc]
      simp
    refine ⟨fun k => ?_, ⟨d, hsnoc.symm⟩, ?_, ?_⟩
    · simpa using fullPath_injective hd (names_append.mp hd).1 k
    · rw [hsnoc, List.drop_left]
      exact hdn.1
    · rw [hsnoc, List.drop_left]
      exact hdn.2.1

/-- **A listing keeps the entries of the directory.** -/
theorem listEntry_eq {ds : List Text} (hc : Names cs) (hd : Names ds) (m : NfsNode) :
    listEntry (.ofComponents cs) (fullPath ds) m =
      if (NormalizedPath.ofComponents ds).parentPath = some (fullPath cs) then some m.toEntry
      else none := by
  unfold listEntry
  simp only [show (NormalizedPath.ofComponents cs).full = fullPath cs from rfl, listing_prefix]
  rw [if_congr (listed_iff hc hd).symm rfl rfl]
  grind

/-- **A listing shows the entries of a directory, each once.** -/
theorem WellFormed.listing (h : nodes.WellFormed) {key : Text} (hn : nodes.lookup key = some n)
    (hdir : n.isDirectory = true) :
    ∃ entries, nodes.listDirectory key = .ok entries ∧ entries.Perm (nodes.children key) := by
  obtain ⟨cs, hcs, rfl⟩ := h.names hn
  refine ⟨nodes.inOrder.filterMap fun e => listEntry (.ofComponents cs) e.1 e.2, ?_, ?_⟩
  · have hlook : nodes.lookup (normalizePath (fullPath cs)).full = some n := by
      rw [normalizePath_fullPath hcs]
      exact hn
    unfold listDirectory
    simp only [hlook, hdir, if_true]
    rw [normalizePath_fullPath hcs]
  · refine ((List.mergeSort_perm _ _).filterMap _).trans (List.Perm.of_eq ?_)
    unfold children
    rw [List.filterMap_map, ← List.filterMap_eq_map, List.filterMap_filter]
    refine List.filterMap_congr fun e he => ?_
    obtain ⟨ds, hds, hkey⟩ := h.names (AList.mem_lookup_iff.mpr he)
    simp only [Function.comp_apply, hkey, listEntry_eq hcs hds, normalizePath_fullPath hds,
      decide_eq_true_iff]

/-- **A well-formed namespace is a tree.** -/
theorem WellFormed.tree (h : nodes.WellFormed) : nodes.Tree where
  root := h.root
  path := fun key n hn => (h.node key n hn).1
  parent := by
    intro key n hn hk
    obtain ⟨cs, c, hcs, rfl, -, d, hd, hdd⟩ := (h.node key n hn).2.resolve_left hk
    refine ⟨fullPath cs, d, ?_, hd, hdd⟩
    rw [normalizePath_fullPath hcs, ofComponents_parentPath]
  name := by
    intro key n hn hk
    obtain ⟨cs, c, hcs, rfl, hname, -⟩ := (h.node key n hn).2.resolve_left hk
    rw [normalizePath_fullPath hcs, hname, ofComponents_name]
    exact ⟨rfl, rfl⟩
  listing := fun key n hn hd => h.listing hn hd

/-! ### The operations keep the tree -/

/-- The first root is a tree. -/
theorem wellFormed_root : WellFormed (ensureRootNode ∅ now) where
  root := ⟨_, AList.lookup_insert _, rfl⟩
  node := by
    intro key m hm
    rcases Table.lookup_insert_eq_some.mp hm with ⟨rfl, rfl⟩ | ⟨-, hm⟩
    · exact ⟨rfl, .inl rfl⟩
    · cases hm

namespace WellFormed

theorem ensureRootNode (h : nodes.WellFormed) : WellFormed (nodes.ensureRootNode now) := by
  obtain ⟨r, hr, -⟩ := h.root
  unfold Namespace.ensureRootNode
  rw [hr]
  exact h.retime hr

theorem touch (h : nodes.WellFormed) (key : Text) : WellFormed (touch nodes key now) := by
  unfold Namespace.touch
  cases hn : nodes.lookup key with
  | none => exact h
  | some n => exact h.retime hn

/-- **A new directory**, under a directory. -/
theorem insert_directory (h : nodes.WellFormed) (hcs : Names (cs ++ [c]))
    (hp : nodes.IsDir (fullPath cs)) :
    WellFormed (nodes.insert (fullPath (cs ++ [c])) (.directory (fullPath (cs ++ [c])) c now)) :=
  h.insert hcs hp rfl rfl (.inl rfl)

end WellFormed

section
variable {part : Text} {parts : List Text}

theorem ensureComponents_new (hn : nodes.lookup (fullPath (cs ++ [part])) = none) :
    ensureComponents now cs (part :: parts) nodes =
      ensureComponents now (cs ++ [part]) parts (nodes.insert (fullPath (cs ++ [part]))
        (.directory (fullPath (cs ++ [part])) part now)) := by
  rw [← cons_intercalate_snoc] at hn ⊢
  simp only [ensureComponents, hn]

theorem ensureComponents_directory (hn : nodes.lookup (fullPath (cs ++ [part])) = some n)
    (hd : n.isDirectory = true) :
    ensureComponents now cs (part :: parts) nodes =
      ensureComponents now (cs ++ [part]) parts (nodes.insert (fullPath (cs ++ [part]))
        { n with modifiedAt := now }) := by
  rw [← cons_intercalate_snoc] at hn ⊢
  simp only [ensureComponents, hn, hd, if_true]

theorem ensureComponents_conflict (hn : nodes.lookup (fullPath (cs ++ [part])) = some n)
    (hd : n.isDirectory ≠ true) :
    ensureComponents now cs (part :: parts) nodes =
      (.error (pathError "Path conflict with file: " (fullPath (cs ++ [part]))), nodes) := by
  rw [← cons_intercalate_snoc] at hn ⊢
  simp only [ensureComponents, hn]
  exact if_neg hd

end

namespace WellFormed

/-- The loop of `ensure_directory`: a tree at every turn, and a directory at the end. -/
theorem ensureComponents {parts : List Text} (h : nodes.WellFormed) (hcs : Names (cs ++ parts))
    (hp : nodes.IsDir (fullPath cs)) :
    WellFormed (ensureComponents now cs parts nodes).2 ∧
      ((ensureComponents now cs parts nodes).1 = .ok () →
        IsDir (Namespace.ensureComponents now cs parts nodes).2 (fullPath (cs ++ parts))) := by
  induction parts generalizing cs nodes with
  | nil =>
      rw [List.append_nil]
      exact ⟨h, fun _ => hp⟩
  | cons part parts ih =>
      have hcs' : Names ((cs ++ [part]) ++ parts) := by rwa [List.append_assoc]
      have hsnoc : Names (cs ++ [part]) := (names_append.mp hcs').1
      rw [List.append_cons]
      cases hn : nodes.lookup (fullPath (cs ++ [part])) with
      | none =>
          rw [ensureComponents_new hn]
          exact ih (h.insert_directory hsnoc hp) hcs' ⟨_, AList.lookup_insert _, rfl⟩
      | some node =>
          by_cases hd : node.isDirectory = true
          · rw [ensureComponents_directory hn hd]
            exact ih (h.retime hn) hcs' ⟨_, AList.lookup_insert _, hd⟩
          · rw [ensureComponents_conflict hn hd]
            exact ⟨h, fun k => by cases k⟩

theorem ensureDirectory (h : nodes.WellFormed) (hcs : Names cs) :
    WellFormed (ensureDirectory nodes (.ofComponents cs) now).2 ∧
      ((ensureDirectory nodes (.ofComponents cs) now).1 = .ok () →
        IsDir (ensureDirectory nodes (.ofComponents cs) now).2 (fullPath cs)) :=
  ensureComponents h.ensureRootNode hcs h.ensureRootNode.root

end WellFormed

/-- The components a loop of `ensure_directory` passes have nothing to do with other paths. -/
theorem ensureComponents_lookup {parts : List Text} {key : Text}
    (hk : ∀ ds, ds ≠ [] → ds <+: parts → key ≠ fullPath (cs ++ ds)) :
    (ensureComponents now cs parts nodes).2.lookup key = nodes.lookup key := by
  induction parts generalizing cs nodes with
  | nil => rfl
  | cons part parts ih =>
      have hne : key ≠ fullPath (cs ++ [part]) := hk [part] (by simp) ⟨parts, rfl⟩
      have hk' : ∀ ds, ds ≠ [] → ds <+: parts → key ≠ fullPath ((cs ++ [part]) ++ ds) := by
        intro ds _ hds
        rw [List.append_assoc]
        exact hk (part :: ds) (List.cons_ne_nil _ _) (List.cons_prefix_cons.mpr ⟨rfl, hds⟩)
      cases hn : nodes.lookup (fullPath (cs ++ [part])) with
      | none => rw [ensureComponents_new hn, ih hk', Table.lookup_insert, if_neg hne]
      | some node =>
          by_cases hd : node.isDirectory = true
          · rw [ensureComponents_directory hn hd, ih hk', Table.lookup_insert, if_neg hne]
          · rw [ensureComponents_conflict hn hd]

/-- `ensure_directory` does not touch what is in the directories below. -/
theorem ensureDirectory_childless (hcs : Names (cs ++ [c])) (h : nodes.Childless (cs ++ [c])) :
    Childless (ensureDirectory nodes (.ofComponents cs) now).2 (cs ++ [c]) := by
  intro d hd
  have hds : Names ((cs ++ [c]) ++ [d]) := names_append.mpr ⟨hcs, names_singleton.mpr hd⟩
  refine (ensureComponents_lookup fun ds _ hp e => ?_).trans ?_
  · have hlen := congrArg List.length (fullPath_injective hds
      (fun x hx => hcs x (List.mem_append_left _ (hp.subset hx))) e)
    have hle : ds.length ≤ cs.length := hp.length_le
    simp only [List.length_append, List.length_singleton] at hlen
    omega
  · have hroot := fullPath_ne_root hds
    unfold ensureRootNode
    cases nodes.lookup ['/'] <;>
      exact (Table.lookup_insert ..).trans ((if_neg hroot).trans (h d hd))

namespace WellFormed

/-- **A file is put in a place without entries.** -/
theorem insertFile (h : nodes.WellFormed) (hcs : Names (cs ++ [c]))
    (hno : nodes.Childless (cs ++ [c])) (id : CapsuleId) (size : Nat) :
    WellFormed (insertFile nodes (.ofComponents (cs ++ [c])) (.ofComponents cs) id size now).2 := by
  obtain ⟨hw, hdir⟩ : WellFormed (Namespace.ensureDirectory nodes (.ofComponents cs) now).2 ∧ _ :=
    h.ensureDirectory (names_append.mp hcs).1
  have hno' : Childless (Namespace.ensureDirectory nodes (.ofComponents cs) now).2 (cs ++ [c]) :=
    ensureDirectory_childless hcs hno
  unfold Namespace.insertFile
  rw [ofComponents_name]
  generalize Namespace.ensureDirectory nodes (.ofComponents cs) now = r at hw hdir hno'
  obtain ⟨r | r, nodes'⟩ := r
  · exact hw
  · exact (hw.insert hcs (hdir rfl) rfl rfl (.inr hno')).touch _

/-- **A file or an empty directory is removed.** -/
theorem remove (h : nodes.WellFormed) (hcs : Names (cs ++ [c])) :
    WellFormed (remove nodes (.ofComponents (cs ++ [c])) now).2 := by
  have hfull : (NormalizedPath.ofComponents (cs ++ [c])).full = fullPath (cs ++ [c]) := rfl
  unfold Namespace.remove
  rw [hfull, ofComponents_parentPath]
  cases hn : nodes.lookup (fullPath (cs ++ [c])) with
  | none => exact h
  | some node =>
      simp only
      split
      · exact h
      · next hb =>
          refine (h.erase hcs ?_).touch _
          simp only [Bool.and_eq_true, List.any_eq_true, decide_eq_true_iff, not_and,
            not_exists] at hb
          by_cases hd : node.isDirectory = true
          · exact childless_of_no_prefix (by simp) fun key hk => hb hd key hk
          · refine h.childless hcs ?_
            rintro ⟨m, hm, hmd⟩
            rw [hn] at hm
            cases hm
            exact hd hmd

end WellFormed

end Namespace

/-! ### Clients -/

/-- What the operations of the view are called with. -/
def NfsOp.Canonical : NfsOp → Prop
  | .insertFile path parent _ _ _ => ∃ cs c, Names (cs ++ [c]) ∧ path = .ofComponents (cs ++ [c]) ∧
      parent = .ofComponents cs
  | .mkdir path _ => ∃ cs, Names cs ∧ path = .ofComponents cs
  | .remove path _ => ∃ cs c, Names (cs ++ [c]) ∧ path = .ofComponents (cs ++ [c])
  | _ => True

/-- No file is inserted where something is below. -/
def NfsOp.KeepsEntries (o : NfsOp) (v : NfsView) : Prop :=
  match o with
  | .insertFile path _ _ _ _ => ∀ key ∈ v.nodes, ¬ path.full ++ ['/'] <+: key
  | _ => True

/-- The namespace is a tree, in memory and in the file. -/
structure NfsView.WellFormed (v : NfsView) : Prop where
  nodes : v.nodes.WellFormed
  file : ∀ f, v.file = some f → Namespace.WellFormed f

/-- **What is done under the lock keeps the tree.** -/
theorem NfsView.exec_wellFormed {v : NfsView} (o : NfsOp) (hc : o.Canonical)
    (hk : o.KeepsEntries v) (h : v.WellFormed) : (NfsView.exec o v).2.WellFormed := by
  cases o with
  | checkCollision path => exact h
  | insertFile path parent id size now =>
      obtain ⟨cs, c, hcs, rfl, rfl⟩ := hc
      exact ⟨h.nodes.insertFile hcs (Namespace.childless_of_no_prefix (by simp) hk) id size, h.file⟩
  | mkdir path now =>
      obtain ⟨cs, hcs, rfl⟩ := hc
      exact ⟨(h.nodes.ensureDirectory hcs).1, h.file⟩
  | remove path now =>
      obtain ⟨cs, c, hcs, rfl⟩ := hc
      exact ⟨h.nodes.remove hcs, h.file⟩
  | persist =>
      show NfsView.WellFormed (if v.persistent then { v with file := some v.nodes } else v)
      split
      · refine ⟨h.nodes, fun f hf => ?_⟩
        cases hf
        exact h.nodes
      · exact h

/-- The operations of clients. -/
def NfsCanonical : (StoreSig.sum NfsSig).Op → Prop
  | .inl _ => True
  | .inr o => o.Canonical

/-- No step inserts a file where something is below. -/
def NfsKeepsEntries {σ : Type} : (StoreSig.sum NfsSig).Op → σ × NfsView → Prop
  | .inl _, _ => True
  | .inr o, s => o.KeepsEntries s.2

theorem uses_locked {o : NfsOp} (h : o.Canonical) :
    (performInr (T := NfsSig) o : NfsProg o.Res).Uses NfsCanonical := uses_perform.mpr h

theorem uses_store {α : Type} {A : (StoreSig.sum NfsSig).Op → Prop} (hA : ∀ o, A (.inl o))
    (p : Native α) : (p.inl : NfsProg α).Uses A := by
  refine uses_inl.mpr ?_
  induction p with
  | ret a => trivial
  | fail e => trivial
  | call o k ih => exact ⟨hA o, ih⟩

theorem uses_dropCapsule {A : (StoreSig.sum NfsSig).Op → Prop} (hA : ∀ o, A (.inl o))
    (id : Option CapsuleId) : (NfsView.dropCapsule id).Uses A := by
  cases id with
  | none => trivial
  | some id => exact uses_bind (uses_attempt (uses_store hA _)) fun _ => trivial

/-- A path that is not the root has a last component. -/
theorem normalizePath_snoc {path : Text} (h : Plain '/' (normalizePath path).components)
    (hr : (normalizePath path).isRoot ≠ true) :
    ∃ cs c, Names (cs ++ [c]) ∧ normalizePath path = .ofComponents (cs ++ [c]) := by
  have hnames := names_normalizePath h
  have hof : normalizePath path = .ofComponents (normalizePath path).components := rfl
  rcases List.eq_nil_or_concat (normalizePath path).components with e | ⟨cs, c, e⟩
  · exact absurd (List.isEmpty_iff.mpr e) hr
  · rw [List.concat_eq_append] at e
    rw [e] at hnames hof
    exact ⟨cs, c, hnames, hof⟩

/-- **What a client calls.** -/
theorem NfsCall.uses {P : Primitives} {c : NfsCall}
    (h : Plain '/' (normalizePath c.path).components) : (c.program P).Uses NfsCanonical := by
  have hstore : ∀ o, NfsCanonical (.inl o) := fun _ => trivial
  cases c with
  | writeFile id path data now =>
      change Plain '/' (normalizePath path).components at h
      refine uses_bind ?_ fun _ => trivial
      unfold NfsView.writeFile
      split
      · trivial
      · next hr =>
          obtain ⟨cs, c, hcs, e⟩ := normalizePath_snoc h hr
          rw [e, ofComponents_parentPath]
          refine uses_bind (uses_locked trivial) fun _ => ?_
          refine uses_bind (uses_store hstore _) fun id' => ?_
          refine uses_bind (uses_locked ⟨cs, c, hcs, rfl, ?_⟩) fun old => ?_
          · exact normalizePath_fullPath (names_append.mp hcs).1
          · refine uses_bind (uses_dropCapsule hstore old) fun _ => ?_
            exact uses_bind (uses_locked trivial) fun _ => trivial
  | mkdir path now =>
      exact uses_bind (uses_locked ⟨_, names_normalizePath h, rfl⟩) fun _ => uses_locked trivial
  | delete path now =>
      change Plain '/' (normalizePath path).components at h
      show Prog.Uses _ (NfsView.delete path now)
      unfold NfsView.delete
      split
      · trivial
      · next hr =>
          obtain ⟨cs, c, hcs, e⟩ := normalizePath_snoc h hr
          refine uses_bind (uses_locked ⟨cs, c, hcs, e⟩) fun old => ?_
          exact uses_bind (uses_dropCapsule hstore old) fun _ => uses_locked trivial

/-- The states that clients reach from a new view, over any pipeline, with views opened again from
the saved file in between. -/
inductive NfsView.Reached {σ : Type} (P : Primitives) (h : Handler StoreSig Error σ)
    (ok : (StoreSig.sum NfsSig).Op → σ × NfsView → Prop) : σ × NfsView → Prop
  | new (s : σ) (now : Nat) : Reached P h ok (s, .new now)
  | create (s : σ) (now : Nat) : Reached P h ok (s, .open none now)
  | reopen {v : σ × NfsView} (hv : Reached P h ok v) (s : σ) (now : Nat) :
      Reached P h ok (s, .open v.2.file now)
  | clients {v v' : σ × NfsView} {ps : List (NfsProg Unit)} (hv : Reached P h ok v)
      (calls : List NfsCall) (hplain : ∀ c ∈ calls, Plain '/' (normalizePath c.path).components)
      (hrun : PoolRun (h.sum NfsView.exec) ok (v, calls.map (NfsCall.program P)) (v', ps)) :
      Reached P h ok v'

/-- **The namespace is always a tree**, as long as no file is inserted over entries. -/
theorem nfs_tree {σ : Type} {P : Primitives} {h : Handler StoreSig Error σ} {v : σ × NfsView}
    (hv : NfsView.Reached P h NfsKeepsEntries v) : v.2.nodes.Tree := by
  suffices hw : v.2.WellFormed from hw.nodes.tree
  induction hv with
  | new s now => exact ⟨Namespace.wellFormed_root, fun f hf => by cases hf⟩
  | create s now => exact ⟨Namespace.wellFormed_root, fun f hf => by cases hf⟩
  | @reopen v hv s now ih =>
      obtain ⟨s', nodes, persistent, file⟩ := v
      cases file with
      | none => exact ⟨Namespace.wellFormed_root, ih.file⟩
      | some f => exact ⟨(ih.file f rfl).ensureRootNode, ih.file⟩
  | clients hv calls hplain hrun ih =>
      refine (PoolRun.keeps (A := NfsCanonical) (I := fun s => s.2.WellFormed) ?_ ?_ ih hrun).1
      · rintro (o | o) s hA hk hI
        · exact hI
        · exact NfsView.exec_wellFormed o hA hk hI
      · intro p hp
        obtain ⟨c, hc, rfl⟩ := List.mem_map.mp hp
        exact NfsCall.uses (hplain c hc)

/-! ### Runs -/

/-- The same, as a test of the step. -/
def nfsKeepsEntries {σ : Type} : (StoreSig.sum NfsSig).Op → σ × NfsView → Bool
  | .inr (.insertFile path _ _ _ _), s =>
    s.2.nodes.keys.all fun key => decide (¬ path.full ++ ['/'] <+: key)
  | _, _ => true

theorem nfsKeepsEntries_sound {σ : Type} (o : (StoreSig.sum NfsSig).Op) (s : σ × NfsView)
    (h : nfsKeepsEntries o s = true) : NfsKeepsEntries o s := by
  cases o with
  | inl o => trivial
  | inr o =>
      cases o with
      | insertFile path parent id size now =>
          intro key hk
          exact of_decide_eq_true (List.all_eq_true.mp h key (AList.mem_keys.mp hk))
      | _ => trivial

/-- A file `/a` and a directory `/a/b`. -/
def sampleCalls : List NfsCall := [.writeFile ⟨0⟩ ['/', 'a'] [] 0, .mkdir ['/', 'a', '/', 'b'] 0]

theorem sampleCalls_plain :
    ∀ c ∈ sampleCalls, Plain '/' (normalizePath c.path).components := by
  unfold Plain
  decide +kernel

/-- The file is there before the directory is made, which then fails. -/
theorem nfs_tree_sample : ∃ v, schedule (StoreOp.exec.sum NfsView.exec) nfsKeepsEntries
    ((.empty (P := .stored) none, .new 0), sampleCalls.map (NfsCall.program .stored))
      [0, 0, 0, 1, 0] = some v ∧ v.1.2.nodes.Tree := by
  have hsome : (schedule (StoreOp.exec.sum NfsView.exec) nfsKeepsEntries
      ((.empty (P := .stored) none, .new 0), sampleCalls.map (NfsCall.program .stored))
      [0, 0, 0, 1, 0]).isSome = true := by decide +kernel
  obtain ⟨v, e⟩ := Option.isSome_iff_exists.mp hsome
  exact ⟨v, e, nfs_tree (.clients (.new _ _) sampleCalls sampleCalls_plain
    (poolRun_of_schedule nfsKeepsEntries_sound e))⟩

/-- The directory is made between the check of the write and its insertion. -/
theorem not_nfs_tree :
    ¬ ∀ (P : Primitives) (v : Store P × NfsView),
      NfsView.Reached P StoreOp.exec (fun _ _ => True) v → v.2.nodes.Tree := by
  intro h
  have hrun : ((schedule (StoreOp.exec.sum NfsView.exec) (fun _ _ => true)
      ((.empty (P := .stored) none, .new 0), sampleCalls.map (NfsCall.program .stored))
      [0, 1, 0, 0]).map
      fun v => ((v.1.2.nodes.lookup ['/', 'a']).map NfsNode.isDirectory,
        (v.1.2.nodes.lookup ['/', 'a', '/', 'b']).isSome)) = some (some false, true) := by
    decide +kernel
  obtain ⟨v, e, hv⟩ := Option.map_eq_some_iff.mp hrun
  obtain ⟨ha, hb⟩ := Prod.mk.inj hv
  obtain ⟨n, hn⟩ := Option.isSome_iff_exists.mp hb
  have htree := h .stored v.1 (.clients (.new _ _) sampleCalls sampleCalls_plain
    (poolRun_of_schedule (fun _ _ _ => trivial) e))
  obtain ⟨dir, d, hp, hd, hdd⟩ := htree.parent _ n hn (by decide)
  obtain rfl : ['/', 'a'] = dir :=
    Option.some.inj ((show _ = some ['/', 'a'] by decide +kernel).symm.trans hp)
  rw [hd] at ha
  exact absurd hdd (by simp [Option.some.inj ha])

end Space
