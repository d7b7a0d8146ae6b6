import Space.Support.FileTree
import Space.Views.NfsOwnership
import Space.Views.NfsTree

/-!
# Views — NfsFiles

The namespace of the file view as the map of its paths (`Namespace.tree`), and what its operations
do to that map.

* `Namespace.WellFormed.closed`: what is in a well-formed namespace is in directories.
* `Namespace.tree_ensureDirectory`, `tree_insertFile`, `tree_remove`: making directories, inserting
  a file and removing a path, with the error each fails with, if it does.
* `Namespace.listDirectory_lists`: a listing shows the entries of a directory, in order.
-/

namespace Space
open Support Paths

instance (c : Text) : Decidable (IsName c) :=
  inferInstanceAs (Decidable (c ≠ [] ∧ '/' ∉ c ∧ '\\' ∉ c ∧ c ≠ ['.'] ∧ c ≠ ['.', '.']))

instance (cs : List Text) : Decidable (Names cs) := List.decidableBAll _ _

/-- What a node is to clients. -/
def NfsNode.fileNode (n : NfsNode) : FileNode (CapsuleId × Nat) :=
  match n.kind with
  | .directory => .dir
  | .file capsuleId size => .file (capsuleId, size)

theorem NfsNode.fileNode_eq_dir {n : NfsNode} : n.fileNode = .dir ↔ n.isDirectory = true := by
  unfold fileNode isDirectory
  cases n.kind <;> simp

theorem NfsNode.fileNode_eq_file {n : NfsNode} {f : CapsuleId × Nat} :
    n.fileNode = .file f ↔ n.content = some f := by
  unfold fileNode content
  cases n.kind <;> simp

namespace Namespace
variable {nodes : Namespace} {cs ds : List Text} {c : Text} {n : NfsNode} {now : Nat}

/-- The namespace as the map of its paths. -/
def tree (nodes : Namespace) : FileTree Text (CapsuleId × Nat) := fun cs =>
  if Names cs then (nodes.lookup (fullPath cs)).map NfsNode.fileNode else none

theorem tree_of_names (h : Names cs) :
    nodes.tree cs = (nodes.lookup (fullPath cs)).map NfsNode.fileNode := if_pos h

theorem names_of_tree (h : nodes.tree cs ≠ none) : Names cs := by
  by_contra hn
  exact h (if_neg hn)

theorem tree_eq_some {x : FileNode (CapsuleId × Nat)} :
    nodes.tree cs = some x ↔
      Names cs ∧ ∃ n, nodes.lookup (fullPath cs) = some n ∧ n.fileNode = x := by
  constructor
  · intro h
    have hcs : Names cs := names_of_tree (by rw [h]; exact Option.some_ne_none _)
    rw [tree_of_names hcs, Option.map_eq_some_iff] at h
    exact ⟨hcs, h⟩
  · rintro ⟨hcs, h⟩
    rw [tree_of_names hcs, Option.map_eq_some_iff]
    exact h

theorem tree_eq_dir (h : Names cs) : nodes.tree cs = some .dir ↔ nodes.IsDir (fullPath cs) := by
  rw [tree_eq_some, and_iff_right h]
  exact exists_congr fun n => and_congr_right fun _ => NfsNode.fileNode_eq_dir

theorem tree_eq_none (h : Names cs) : nodes.tree cs = none ↔ nodes.lookup (fullPath cs) = none := by
  rw [tree_of_names h, Option.map_eq_none_iff]

theorem tree_eq_file {f : CapsuleId × Nat} :
    nodes.tree cs = some (.file f) ↔ Names cs ∧ nodes.fileAt (fullPath cs) = some f := by
  rw [tree_eq_some, fileAt, Option.bind_eq_some_iff]
  exact and_congr_right fun _ => exists_congr fun n =>
    and_congr_right fun _ => NfsNode.fileNode_eq_file

theorem tree_of_file (h : Names cs) (hn : nodes.lookup (fullPath cs) = some n)
    (hd : n.isDirectory ≠ true) : ∃ f, nodes.tree cs = some (.file f) := by
  cases hf : n.fileNode with
  | dir => exact absurd (NfsNode.fileNode_eq_dir.mp hf) hd
  | file f => exact ⟨f, tree_eq_some.mpr ⟨h, n, hn, hf⟩⟩

/-- **What is in a namespace is in directories.** -/
theorem WellFormed.closed (h : nodes.WellFormed) : nodes.tree.Closed where
  root := (tree_eq_dir names_nil).mpr h.root
  parent := by
    intro cs c hne
    have hcs := names_of_tree hne
    rw [Ne, tree_eq_none hcs] at hne
    obtain ⟨n, hn⟩ := Option.ne_none_iff_exists'.mp hne
    obtain ⟨ds, d, hds, e, -, hdir⟩ := (h.node _ n hn).2.resolve_left (fullPath_ne_root hcs)
    obtain rfl := (List.append_inj' (fullPath_injective hcs hds e) rfl).1
    exact (tree_eq_dir (names_append.mp hcs).1).mpr hdir

/-! ### One node -/

theorem tree_insert (h : Names cs) (n : NfsNode) :
    tree (nodes.insert (fullPath cs) n) = Function.update nodes.tree cs (some n.fileNode) := by
  funext ds
  by_cases hd : ds = cs
  · subst hd
    rw [Function.update_self, tree_of_names h, Table.lookup_insert, if_pos rfl]
    rfl
  · rw [Function.update_of_ne hd]
    unfold tree
    refine if_ctx_congr Iff.rfl (fun hds => ?_) fun _ => rfl
    rw [Table.lookup_insert, if_neg fun e => hd (fullPath_injective hds h e)]

theorem tree_erase (h : Names cs) : tree (nodes.erase (fullPath cs)) = nodes.tree.remove cs := by
  funext ds
  unfold FileTree.remove
  by_cases hd : ds = cs
  · subst hd
    rw [Function.update_self, tree_of_names h, Table.lookup_erase, if_pos rfl]
    rfl
  · rw [Function.update_of_ne hd]
    unfold tree
    refine if_ctx_congr Iff.rfl (fun hds => ?_) fun _ => rfl
    rw [Table.lookup_erase, if_neg fun e => hd (fullPath_injective hds h e)]

/-- The time of a node is not seen. -/
theorem tree_retime {key : Text} (h : nodes.lookup key = some n) (now : Nat) :
    tree (nodes.insert key { n with modifiedAt := now }) = nodes.tree := by
  funext ds
  unfold tree
  rw [Table.lookup_insert]
  by_cases hd : fullPath ds = key
  · rw [if_pos hd, hd, h]
    rfl
  · rw [if_neg hd]

theorem tree_touch {key : Text} : tree (touch nodes key now) = nodes.tree := by
  unfold touch
  cases h : nodes.lookup key with
  | none => rfl
  | some n => exact tree_retime h now

theorem tree_ensureRootNode (h : nodes.WellFormed) :
    tree (nodes.ensureRootNode now) = nodes.tree := by
  obtain ⟨r, hr, -⟩ := h.root
  unfold ensureRootNode
  rw [hr]
  exact tree_retime hr now

theorem tree_root : tree (ensureRootNode ∅ now) = .root := by
  funext cs
  rw [show ensureRootNode ∅ now =
    AList.insert (fullPath []) (.directory ['/'] ['/'] now) ∅ from rfl, tree_insert names_nil]
  cases cs with
  | nil => rfl
  | cons c cs =>
      rw [Function.update_of_ne (List.cons_ne_nil _ _)]
      unfold tree
      split <;> rfl

/-! ### The operations -/

section
variable {parts : List Text}

/-- **The walk over the components**, with no file on the way. -/
theorem tree_ensureComponents (h : nodes.WellFormed) (hcs : Names (cs ++ parts))
    (hp : nodes.tree cs = some .dir) (hclear : nodes.tree.Clear (cs ++ parts)) :
    (ensureComponents now cs parts nodes).1 = .ok () ∧
      tree (ensureComponents now cs parts nodes).2 = nodes.tree.mkdirs (cs ++ parts) := by
  induction parts generalizing cs nodes with
  | nil =>
      rw [List.append_nil]
      exact ⟨rfl, (h.closed.mkdirs_eq hp).symm⟩
  | cons part parts ih =>
      rw [List.append_cons] at hcs hclear ⊢
      have hsnoc : Names (cs ++ [part]) := (names_append.mp hcs).1
      have hdir := (tree_eq_dir (names_append.mp hsnoc).1).mp hp
      cases hn : nodes.lookup (fullPath (cs ++ [part])) with
      | none =>
          have htree : tree (nodes.insert _ _) = _ := tree_insert hsnoc
            (.directory (fullPath (cs ++ [part])) part now)
          rw [ensureComponents_new hn]
          obtain ⟨hok, hmk⟩ := ih (h.insert_directory hsnoc hdir) hcs
            (by rw [htree, Function.update_self]; rfl) (htree ▸ hclear.update_dir _)
          rw [hmk, htree]
          exact ⟨hok, FileTree.mkdirs_update_dir (List.prefix_append _ _)⟩
      | some node =>
          by_cases hd : node.isDirectory = true
          · have htree := tree_retime hn now
            rw [ensureComponents_directory hn hd, ← htree]
            refine ih (h.retime hn) hcs ?_ (htree.symm ▸ hclear)
            rw [htree, tree_eq_dir hsnoc]
            exact ⟨node, hn, hd⟩
          · obtain ⟨f, hf⟩ := tree_of_file hsnoc hn hd
            exact absurd hf (hclear _ f (List.prefix_append _ _))

/-- The walk ends at the first file, and nothing is made. -/
theorem tree_ensureComponents_blocked (h : nodes.WellFormed) (hcs : Names (cs ++ parts))
    (hp : nodes.tree cs = some .dir) (hfirst : nodes.tree.FirstFile (cs ++ parts) ds) :
    (ensureComponents now cs parts nodes).1 =
        .error (pathError "Path conflict with file: " (fullPath ds)) ∧
      tree (ensureComponents now cs parts nodes).2 = nodes.tree := by
  obtain ⟨f, hf⟩ := hfirst.file
  induction parts generalizing cs nodes with
  | nil =>
      rw [List.append_nil] at hfirst
      exact absurd hf (h.closed.clear hp ds f hfirst.on)
  | cons part parts ih =>
      rw [List.append_cons] at hcs hfirst
      have hsnoc : Names (cs ++ [part]) := (names_append.mp hcs).1
      -- the file is not above `cs`, so it is at the next component or below
      have hbelow : cs ++ [part] <+: ds := by
        rcases List.prefix_or_prefix_of_prefix hfirst.on (List.prefix_append (cs ++ [part]) parts)
          with k | k
        · rcases List.prefix_concat_iff.mp k with rfl | k
          · exact List.prefix_rfl
          · exact absurd hf (h.closed.clear hp ds f k)
        · exact k
      cases hn : nodes.lookup (fullPath (cs ++ [part])) with
      | none =>
          exfalso
          by_cases e : cs ++ [part] = ds
          · subst e
            rw [(tree_eq_none hsnoc).mpr hn] at hf
            cases hf
          · have := h.closed.above (by rw [hf]; exact Option.some_ne_none _) hbelow e
            rw [(tree_eq_none hsnoc).mpr hn] at this
            cases this
      | some node =>
          by_cases hd : node.isDirectory = true
          · have htree := tree_retime hn now
            rw [ensureComponents_directory hn hd, ← htree]
            refine ih (h.retime hn) hcs ?_ (htree.symm ▸ hfirst) (htree.symm ▸ hf)
            rw [htree, tree_eq_dir hsnoc]
            exact ⟨node, hn, hd⟩
          · obtain ⟨f', hf'⟩ := tree_of_file hsnoc hn hd
            have hfirst' := hfirst.first _ f' (List.prefix_append _ _) hf'
            rw [ensureComponents_conflict hn hd,
              hfirst'.eq_of_length_le hbelow.length_le]
            exact ⟨rfl, rfl⟩

theorem tree_ensureDirectory (h : nodes.WellFormed) (hcs : Names cs)
    (hclear : nodes.tree.Clear cs) (now : Nat) :
    (ensureDirectory nodes (.ofComponents cs) now).1 = .ok () ∧
      tree (ensureDirectory nodes (.ofComponents cs) now).2 = nodes.tree.mkdirs cs := by
  have htree : tree (nodes.ensureRootNode now) = nodes.tree := tree_ensureRootNode h
  rw [← htree] at hclear ⊢
  exact tree_ensureComponents h.ensureRootNode hcs h.ensureRootNode.closed.root hclear

theorem tree_ensureDirectory_blocked (h : nodes.WellFormed) (hcs : Names cs)
    (hfirst : nodes.tree.FirstFile cs ds) (now : Nat) :
    (ensureDirectory nodes (.ofComponents cs) now).1 =
        .error (pathError "Path conflict with file: " (fullPath ds)) ∧
      tree (ensureDirectory nodes (.ofComponents cs) now).2 = nodes.tree := by
  have htree : tree (nodes.ensureRootNode now) = nodes.tree := tree_ensureRootNode h
  rw [← htree] at hfirst ⊢
  exact tree_ensureComponents_blocked h.ensureRootNode hcs h.ensureRootNode.closed.root hfirst

/-- **A file is inserted**, with the directories above it. -/
theorem tree_insertFile (h : nodes.WellFormed) (hcs : Names (cs ++ [c]))
    (hclear : nodes.tree.Clear cs) (id : CapsuleId) (size now : Nat) :
    (∃ old, (insertFile nodes (.ofComponents (cs ++ [c])) (.ofComponents cs) id size now).1 =
        .ok old) ∧
      tree (insertFile nodes (.ofComponents (cs ++ [c])) (.ofComponents cs) id size now).2 =
        nodes.tree.put (cs ++ [c]) (id, size) := by
  obtain ⟨hok, htree⟩ := tree_ensureDirectory h (names_append.mp hcs).1 hclear now
  unfold insertFile
  rw [ofComponents_name]
  generalize ensureDirectory nodes (.ofComponents cs) now = r at hok htree
  obtain ⟨r, nodes'⟩ := r
  obtain rfl : r = .ok () := hok
  refine ⟨⟨_, rfl⟩, tree_touch.trans ((tree_insert hcs _).trans ?_)⟩
  rw [show nodes'.tree = nodes.tree.mkdirs cs from htree, FileTree.put, List.dropLast_concat]
  rfl

theorem tree_insertFile_blocked (h : nodes.WellFormed) (hcs : Names (cs ++ [c]))
    (hfirst : nodes.tree.FirstFile cs ds) (id : CapsuleId) (size now : Nat) :
    (insertFile nodes (.ofComponents (cs ++ [c])) (.ofComponents cs) id size now).1 =
        .error (pathError "Path conflict with file: " (fullPath ds)) ∧
      tree (insertFile nodes (.ofComponents (cs ++ [c])) (.ofComponents cs) id size now).2 =
        nodes.tree := by
  obtain ⟨herr, htree⟩ := tree_ensureDirectory_blocked h (names_append.mp hcs).1 hfirst now
  unfold insertFile
  generalize ensureDirectory nodes (.ofComponents cs) now = r at herr htree
  obtain ⟨r, nodes'⟩ := r
  obtain rfl : r = .error _ := herr
  exact ⟨rfl, htree⟩

theorem checkCollision_eq (hcs : Names cs) :
    checkCollision nodes (.ofComponents cs) =
      if nodes.tree cs = some .dir then .error (.msg "Cannot overwrite directory with file")
      else .ok () := by
  unfold checkCollision
  refine if_congr ?_ rfl rfl
  rw [tree_eq_dir hcs, Option.any_eq_true]
  rfl

/-- Something is below a directory just when something is in it. -/
theorem any_below_iff (h : nodes.WellFormed) (hcs : Names (cs ++ [c])) :
    (nodes.keys.any fun k => decide (fullPath (cs ++ [c]) ++ ['/'] <+: k)) = true ↔
      ∃ d, nodes.tree (cs ++ [c] ++ [d]) ≠ none := by
  rw [List.any_eq_true]
  constructor
  · rintro ⟨key, hkey, hbelow⟩
    obtain ⟨n, hn⟩ := Table.mem_iff.mp (AList.mem_keys.mp hkey)
    obtain ⟨ds, hds, rfl⟩ := h.names hn
    have hne : ds ≠ [] := by
      rintro rfl
      have hlen := (of_decide_eq_true hbelow).length_le
      rw [fullPath_snoc, slashed_snoc] at hlen
      simp only [fullPath_nil, List.length_append, List.length_cons, List.length_nil] at hlen
      omega
    rw [decide_eq_true_iff, fullPath_snoc, fullPath_of_ne_nil hne,
      slashed_sep_start hcs.plain hds.plain] at hbelow
    obtain ⟨d, rest, rfl⟩ := hbelow
    refine ⟨d, h.closed.entry (q := rest) ?_⟩
    rw [tree_of_names hds, hn]
    exact Option.some_ne_none _
  · rintro ⟨d, hd⟩
    have hds := names_of_tree hd
    rw [Ne, tree_eq_none hds] at hd
    obtain ⟨n, hn⟩ := Option.ne_none_iff_exists'.mp hd
    refine ⟨_, AList.mem_keys.mpr (Table.mem_iff.mpr ⟨n, hn⟩), decide_eq_true ?_⟩
    rw [fullPath_snoc, fullPath_snoc, slashed_snoc (cs ++ [c])]
    exact ⟨d, by simp⟩

/-- **A path is removed**, if nothing is below it. -/
theorem tree_remove (h : nodes.WellFormed) (hcs : Names (cs ++ [c]))
    (hin : nodes.tree (cs ++ [c]) ≠ none) (hbelow : ∀ d, nodes.tree (cs ++ [c] ++ [d]) = none)
    (now : Nat) :
    (∃ old, (remove nodes (.ofComponents (cs ++ [c])) now).1 = .ok old) ∧
      tree (remove nodes (.ofComponents (cs ++ [c])) now).2 = nodes.tree.remove (cs ++ [c]) := by
  rw [Ne, tree_eq_none hcs] at hin
  obtain ⟨n, hn⟩ := Option.ne_none_iff_exists'.mp hin
  have hnot := mt (any_below_iff h hcs).mp fun ⟨d, hd⟩ => hd (hbelow d)
  have hfull : (NormalizedPath.ofComponents (cs ++ [c])).full = fullPath (cs ++ [c]) := rfl
  unfold remove
  rw [hfull, ofComponents_parentPath, hn]
  dsimp only
  rw [if_neg fun k => hnot (Bool.and_eq_true_iff.mp k).2]
  exact ⟨⟨_, rfl⟩, tree_touch.trans (tree_erase hcs)⟩

theorem remove_missing (hcs : Names cs) (hin : nodes.tree cs = none) :
    remove nodes (.ofComponents cs) now =
      (.error (pathError "No such path: " (fullPath cs)), nodes) := by
  unfold remove
  rw [show nodes.lookup (NormalizedPath.ofComponents cs).full = none from (tree_eq_none hcs).mp hin]
  rfl

theorem remove_not_empty (h : nodes.WellFormed) (hcs : Names (cs ++ [c]))
    (hbelow : ∃ d, nodes.tree (cs ++ [c] ++ [d]) ≠ none) :
    remove nodes (.ofComponents (cs ++ [c])) now =
      (.error (pathError "Directory not empty: " (fullPath (cs ++ [c]))), nodes) := by
  obtain ⟨d, hd⟩ := hbelow
  obtain ⟨n, hn, hdir⟩ := (tree_eq_dir hcs).mp (h.closed.parent _ d hd)
  have hany := (any_below_iff h hcs).mpr ⟨d, hd⟩
  have hfull : (NormalizedPath.ofComponents (cs ++ [c])).full = fullPath (cs ++ [c]) := rfl
  unfold remove
  rw [hfull, hn]
  dsimp only
  rw [hdir, hany]
  rfl

end

/-! ### Listings -/

theorem mem_inOrder {key : Text} : (key, n) ∈ nodes.inOrder ↔ nodes.lookup key = some n := by
  unfold inOrder
  rw [List.mem_mergeSort, List.mem_map]
  constructor
  · rintro ⟨⟨k, m⟩, hm, e⟩
    cases e
    exact AList.mem_lookup_iff.mpr hm
  · exact fun h => ⟨⟨key, n⟩, AList.mem_lookup_iff.mp h, rfl⟩

/-- No key comes twice, so the order is strict. -/
theorem pairwise_inOrder (nodes : Namespace) : nodes.inOrder.Pairwise fun a b => a.1 < b.1 := by
  have hle : nodes.inOrder.Pairwise fun a b => decide (a.1 ≤ b.1) = true :=
    List.pairwise_mergeSort
      (fun a b c hab hbc => decide_eq_true
        ((of_decide_eq_true hab).trans (of_decide_eq_true hbc)))
      (fun a b => by simpa using le_total a.1 b.1) _
  have hne : nodes.inOrder.Pairwise fun a b => a.1 ≠ b.1 := by
    refine (List.Perm.pairwise_iff (fun h => Ne.symm h) (List.mergeSort_perm _ _)).mpr ?_
    exact List.pairwise_map.mpr (List.nodupKeys_iff_pairwise.mp nodes.nodupKeys)
  exact (hle.and hne).imp fun h => lt_of_le_of_ne (of_decide_eq_true h.1) h.2

/-- **A listing shows the entries of a directory, each once, in order.** -/
theorem WellFormed.lists (h : nodes.WellFormed) (hcs : Names cs) :
    ((nodes.inOrder.filterMap fun e => listEntry (.ofComponents cs) e.1 e.2).Pairwise
      fun a b => a.path < b.path) ∧
    ∀ e, e ∈ (nodes.inOrder.filterMap fun e => listEntry (.ofComponents cs) e.1 e.2) ↔
      ∃ c n, Names (cs ++ [c]) ∧ nodes.lookup (fullPath (cs ++ [c])) = some n ∧ e = n.toEntry := by
  -- the paths of the entries are the keys
  have hpath : ∀ key n e, nodes.lookup key = some n → listEntry (.ofComponents cs) key n = some e →
      e.path = key := by
    intro key n e hn he
    obtain ⟨ds, hds, rfl⟩ := h.names hn
    rw [listEntry_eq hcs hds] at he
    split at he
    · cases he
      rw [← (h.node _ n hn).1]
      unfold NfsNode.toEntry
      cases n.kind <;> rfl
    · cases he
  constructor
  · refine List.pairwise_filterMap.mpr ((pairwise_inOrder nodes).imp_of_mem ?_)
    intro a b ha hb hlt e he e' he'
    rw [hpath _ _ e (mem_inOrder.mp ha) he, hpath _ _ e' (mem_inOrder.mp hb) he']
    exact hlt
  · intro e
    rw [List.mem_filterMap]
    constructor
    · rintro ⟨⟨key, n⟩, hmem, he⟩
      rw [mem_inOrder] at hmem
      obtain ⟨ds, hds, rfl⟩ := h.names hmem
      rw [listEntry_eq hcs hds] at he
      split at he
      · next hparent =>
          cases he
          rcases List.eq_nil_or_concat ds with rfl | ⟨ds, d, rfl⟩
          · cases hparent
          · rw [List.concat_eq_append] at hds hmem hparent
            rw [ofComponents_parentPath, Option.some_inj] at hparent
            obtain rfl := fullPath_injective (names_append.mp hds).1 hcs hparent
            exact ⟨d, n, hds, hmem, rfl⟩
      · cases he
    · rintro ⟨c, n, hcc, hn, rfl⟩
      refine ⟨_, mem_inOrder.mpr hn, ?_⟩
      rw [listEntry_eq hcs hcc, if_pos (ofComponents_parentPath cs c)]

end Namespace

end Space
