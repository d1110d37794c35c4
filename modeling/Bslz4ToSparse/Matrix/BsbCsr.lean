import Bslz4ToSparse.Foundation.Sorted
import Bslz4ToSparse.Foundation.Tiles
import Bslz4ToSparse.Matrix.Runs

/-!
# The matrix transposed per decode block (src/_matrix.py)

The entries of a block, grouped by bin. An entry keeps the place of its pixel in the block,
in 16 bits.
-/

namespace Bslz4ToSparse.Matrix

open Foundation

variable {F : Type}

/-- `_BsbCSR`. -/
structure BsbCsr (F : Type) where
  blkPtr : List Nat
  bins : List Nat
  binPtr : List Nat
  idx : List Nat
  data : List F
  blockElems : Nat

/-- `BSB_MAX_BLOCK_ELEMS`. -/
def bsbMaxBlockElems : Nat := 65536

namespace NormalMatrix

variable (m : NormalMatrix F) (blockElems : Nat)

/-- The block of entry `k`. -/
def entryBlock (k : Nat) : Nat := m.entryPixels.getD k 0 / blockElems

def entryBin (k : Nat) : Nat := m.indices.getD k 0

/-- By block, bin and pixel. -/
def entryLe (a b : Nat) : Bool :=
  if m.entryBlock blockElems a ≠ m.entryBlock blockElems b then
    m.entryBlock blockElems a < m.entryBlock blockElems b
  else if m.entryBin a ≠ m.entryBin b then m.entryBin a < m.entryBin b
  else m.entryPixels.getD a 0 ≤ m.entryPixels.getD b 0

/-- `np.lexsort((pix, indices, block))`. -/
def entryOrder : List Nat :=
  (List.range m.entryPixels.length).mergeSort (m.entryLe blockElems)

/-- Block and bin in one number. It fits an `int64`: there are at most 2^31 of either. -/
def entryKey (k : Nat) : Nat := m.entryBlock blockElems k * (m.nbins + 1) + m.entryBin k

/-- The keys in their order. -/
def keys : List Nat := (m.entryOrder blockElems).map (m.entryKey blockElems)

/-- The block of each group. -/
def blockOfGroup : List Nat :=
  (groupStarts (m.keys blockElems)).map fun s =>
    ((m.entryOrder blockElems).map (m.entryBlock blockElems)).getD s 0

def nblocks : Nat := (m.npix + blockElems - 1) / blockElems

/-- `_bsb_csr_from_csc`. -/
def bsbCsr [Inhabited F] : BsbCsr F :=
  if m.entryPixels.length = 0 then
    { blkPtr := List.replicate (m.nblocks blockElems + 1) 0
      bins := []
      binPtr := [0]
      idx := []
      data := []
      blockElems }
  else
    let order := m.entryOrder blockElems
    let binS := order.map m.entryBin
    let pixS := order.map fun k => m.entryPixels.getD k 0
    let starts := groupStarts (m.keys blockElems)
    { blkPtr := (List.range (m.nblocks blockElems + 1)).map (searchSorted (m.blockOfGroup blockElems))
      bins := starts.map fun s => binS.getD s 0
      binPtr := starts ++ [m.entryPixels.length]
      idx := pixS.map fun p => p % blockElems % 2 ^ 16
      data := order.map fun k => m.data.getD k default
      blockElems }

/-- The layout of the bsb-csr dots. -/
def bsbLayout [Inhabited F] : Except LayoutError (BsbCsr F) :=
  if bsbMaxBlockElems < blockElems then .error (.blockElems blockElems bsbMaxBlockElems)
  else .ok (m.bsbCsr blockElems)

end NormalMatrix

namespace BsbCsr

variable [Inhabited F] (q : BsbCsr F)

/-- The groups of block `K`. -/
def groups (K : Nat) : List Nat :=
  List.range' (q.blkPtr.getD K 0) (q.blkPtr.getD (K + 1) 0 - q.blkPtr.getD K 0)

/-- The entries of group `g`. -/
def positions (g : Nat) : List Nat :=
  List.range' (q.binPtr.getD g 0) (q.binPtr.getD (g + 1) 0 - q.binPtr.getD g 0)

/-- Pixel, bin and weight of the entries of block `K`, as the arrays give them. -/
def blockEntries (K : Nat) : List (Nat × Nat × F) :=
  (q.groups K).flatMap fun g => (q.positions g).map fun k =>
    (K * q.blockElems + q.idx.getD k 0, q.bins.getD g 0, q.data.getD k default)

/-- Pixel, bin and weight of every entry, as the arrays give them. -/
def entries : List (Nat × Nat × F) := (List.range (q.blkPtr.length - 1)).flatMap q.blockEntries

end BsbCsr

namespace NormalMatrix

variable (m : NormalMatrix F) {blockElems : Nat}

/-- Entry `k`. -/
def entry [Inhabited F] (k : Nat) : Nat × Nat × F :=
  (m.entryPixels.getD k 0, m.entryBin k, m.data.getD k default)

theorem pixelEntries_eq [Inhabited F] {p : Nat} (hp : p < m.npix) :
    m.pixelEntries p = (List.range' (m.ptr p) (m.count p)).map m.entry := by
  rw [pixelEntries, m.column_eq_map hp, List.map_map]
  refine List.map_congr_left fun k hk => ?_
  have hin := List.mem_range'_1.mp hk
  have hpix := m.getD_entryPixels hp (show k - m.ptr p < m.count p by omega)
  rw [Nat.add_sub_cancel' hin.1] at hpix
  simp only [Function.comp_apply, entry, entryBin, hpix]

/-- The entries in the order of the arrays. -/
theorem entries_eq [Inhabited F] : m.entries = (List.range m.entryPixels.length).map m.entry := by
  have hcut := flatMap_segment m.ptr (List.range m.entryPixels.length) m.npix m.indptr_zero m.indptr_mono
  have hlast : m.ptr m.npix = m.entryPixels.length := by
    rw [length_entryPixels]
    exact m.indptr_last
  rw [List.take_of_length_le (by rw [List.length_range, hlast])] at hcut
  rw [← hcut, entries, List.map_flatMap]
  refine List.flatMap_congr fun p hp => ?_
  have hlt := List.mem_range.mp hp
  have hle := m.ptr_le (show p + 1 ≤ m.npix from hlt)
  have hmono := m.ptr_le_succ hlt
  rw [m.pixelEntries_eq hlt, Foundation.segment, ← map_range'_getD _ 0 (by
    rw [List.length_range, length_entryPixels]; omega), List.map_map, count]
  refine List.map_congr_left fun k hk => ?_
  have hin := List.mem_range'_1.mp hk
  rw [Function.comp_apply, List.getD_eq_getElem _ _ (by
    rw [List.length_range, length_entryPixels]; omega), List.getElem_range]

theorem entryBin_lt (k : Nat) (hk : k < m.entryPixels.length) : m.entryBin k < m.nbins := by
  rw [length_entryPixels] at hk
  rw [entryBin, List.getD_eq_getElem _ _ hk]
  exact m.indices_lt _ (List.getElem_mem hk)

/-! ## The order -/

theorem entryOrder_perm : (m.entryOrder blockElems).Perm (List.range m.entryPixels.length) :=
  List.mergeSort_perm _ _

theorem length_entryOrder : (m.entryOrder blockElems).length = m.entryPixels.length := by
  rw [m.entryOrder_perm.length_eq, List.length_range]

theorem entryOrder_sorted :
    (m.entryOrder blockElems).Pairwise fun a b => m.entryLe blockElems a b = true := by
  refine List.pairwise_mergeSort (fun a b c => ?_) (fun a b => ?_) _
  · unfold entryLe
    intro h₁ h₂
    grind
  · unfold entryLe
    grind

theorem entryKey_le {a b : Nat} (ha : a < m.entryPixels.length)
    (h : m.entryLe blockElems a b = true) : m.entryKey blockElems a ≤ m.entryKey blockElems b := by
  have hbin := m.entryBin_lt a ha
  unfold entryLe at h
  unfold entryKey
  by_cases hblock : m.entryBlock blockElems a = m.entryBlock blockElems b
  · rw [hblock]
    by_cases heq : m.entryBin a = m.entryBin b
    · rw [heq]
    · simp only [hblock, heq, ne_eq, not_true_eq_false, not_false_eq_true, if_false, if_true,
        decide_eq_true_eq] at h
      omega
  · simp only [hblock, ne_eq, not_false_eq_true, if_true, decide_eq_true_eq] at h
    have hmul := Nat.mul_le_mul_right (m.nbins + 1) (show m.entryBlock blockElems a + 1 ≤ _ from h)
    rw [Nat.add_mul] at hmul
    omega

theorem keys_sorted : (m.keys blockElems).Pairwise (· ≤ ·) := by
  refine List.pairwise_map.mpr (m.entryOrder_sorted.imp_of_mem fun ha _ h => ?_)
  exact m.entryKey_le (List.mem_range.mp (m.entryOrder_perm.mem_iff.mp ha)) h

theorem entryKey_div {k : Nat} (hk : k < m.entryPixels.length) :
    m.entryKey blockElems k / (m.nbins + 1) = m.entryBlock blockElems k := by
  have hbin := m.entryBin_lt k hk
  rw [entryKey, Nat.add_comm, Nat.add_mul_div_right _ _ (Nat.succ_pos _),
    Nat.div_eq_of_lt (by omega), Nat.zero_add]

theorem entryKey_mod {k : Nat} (hk : k < m.entryPixels.length) :
    m.entryKey blockElems k % (m.nbins + 1) = m.entryBin k := by
  have hbin := m.entryBin_lt k hk
  rw [entryKey, Nat.add_comm, Nat.add_mul_mod_self_right, Nat.mod_eq_of_lt (by omega)]

/-- The entry at place `k` of the order. -/
def entryAt (blockElems k : Nat) : Nat := (m.entryOrder blockElems).getD k 0

theorem length_keys : (m.keys blockElems).length = m.entryPixels.length := by
  rw [keys, List.length_map, length_entryOrder]

theorem entryAt_lt {k : Nat} (hk : k < m.entryPixels.length) :
    m.entryAt blockElems k < m.entryPixels.length := by
  have hlen : k < (m.entryOrder blockElems).length := by rwa [length_entryOrder]
  rw [entryAt, List.getD_eq_getElem _ _ hlen]
  exact List.mem_range.mp (m.entryOrder_perm.mem_iff.mp (List.getElem_mem hlen))

/-- An array that was taken in the order. -/
theorem getD_order {α : Type} (f : Nat → α) (d : α) {k : Nat} (hk : k < m.entryPixels.length) :
    ((m.entryOrder blockElems).map f).getD k d = f (m.entryAt blockElems k) := by
  have hlen : k < (m.entryOrder blockElems).length := by rwa [length_entryOrder]
  simp [List.getD_eq_getElem?_getD, entryAt, List.getElem?_eq_getElem hlen]

theorem getD_keys {k : Nat} (hk : k < m.entryPixels.length) :
    (m.keys blockElems).getD k 0 = m.entryKey blockElems (m.entryAt blockElems k) :=
  m.getD_order _ 0 hk

/-! ## The arrays -/

section

variable (hnz : m.entryPixels.length ≠ 0)

include hnz

theorem keys_ne_nil : m.keys blockElems ≠ [] := by
  rw [← List.length_pos_iff, length_keys]
  omega

theorem groupPtr_lt {g : Nat} (hg : g < (groupStarts (m.keys blockElems)).length) :
    groupPtr (m.keys blockElems) g < m.entryPixels.length := by
  rw [← @length_keys F m blockElems]
  exact groupStarts_lt (m.keys_ne_nil hnz) (groupPtr_mem hg)

theorem getD_binPtr [Inhabited F] (g : Nat) :
    (m.bsbCsr blockElems).binPtr.getD g 0 = groupPtr (m.keys blockElems) g := by
  rw [bsbCsr, if_neg hnz, groupPtr, length_keys]

theorem getD_bins [Inhabited F] {g : Nat} (hg : g < (groupStarts (m.keys blockElems)).length) :
    (m.bsbCsr blockElems).bins.getD g 0 =
      m.entryBin (m.entryAt blockElems (groupPtr (m.keys blockElems) g)) := by
  rw [bsbCsr, if_neg hnz, ← m.getD_order m.entryBin 0 (m.groupPtr_lt hnz hg), groupPtr_eq hg]
  simp only [List.getD_eq_getElem?_getD, List.getElem?_map, List.getElem?_eq_getElem hg,
    Option.map_some, Option.getD_some]

theorem getD_blockOfGroup {g : Nat} (hg : g < (groupStarts (m.keys blockElems)).length) :
    (m.blockOfGroup blockElems).getD g 0 =
      m.entryBlock blockElems (m.entryAt blockElems (groupPtr (m.keys blockElems) g)) := by
  rw [← m.getD_order (m.entryBlock blockElems) 0 (m.groupPtr_lt hnz hg), groupPtr_eq hg, blockOfGroup]
  simp only [List.getD_eq_getElem?_getD, List.getElem?_map, List.getElem?_eq_getElem hg,
    Option.map_some, Option.getD_some]

/-- The groups are in the order of their blocks. -/
theorem blockOfGroup_sorted : (m.blockOfGroup blockElems).Pairwise (· ≤ ·) := by
  have hkeys := List.pairwise_map.mp (groupKeys_sorted (@keys_sorted F m blockElems))
  refine List.pairwise_map.mpr (hkeys.imp_of_mem fun {a b} ha hb hlt => ?_)
  have hlen : ∀ {s}, s ∈ groupStarts (m.keys blockElems) → s < m.entryPixels.length := by
    intro s hs
    rw [← @length_keys F m blockElems]
    exact groupStarts_lt (m.keys_ne_nil hnz) hs
  rw [m.getD_keys (hlen ha), m.getD_keys (hlen hb)] at hlt
  rw [m.getD_order _ _ (hlen ha), m.getD_order _ _ (hlen hb),
    ← m.entryKey_div (m.entryAt_lt (hlen ha)), ← m.entryKey_div (m.entryAt_lt (hlen hb))]
  exact Nat.div_le_div_right hlt.le

/-- The groups of a block, in some order. -/
theorem groups_perm [Inhabited F] {K : Nat} (hK : K < m.nblocks blockElems) :
    ((m.bsbCsr blockElems).groups K).Perm
      ((List.range (groupStarts (m.keys blockElems)).length).filter fun g =>
        (m.blockOfGroup blockElems).getD g 0 == K) := by
  have hptr : ∀ k, k ≤ m.nblocks blockElems →
      (m.bsbCsr blockElems).blkPtr.getD k 0 = searchSorted (m.blockOfGroup blockElems) k := by
    intro k hk
    rw [bsbCsr, if_neg hnz]
    simp [List.getD_eq_getElem?_getD, show k < m.nblocks blockElems + 1 by omega]
  have hlen : (m.blockOfGroup blockElems).length = (groupStarts (m.keys blockElems)).length := by
    rw [blockOfGroup, List.length_map]
  rw [BsbCsr.groups, hptr K hK.le, hptr (K + 1) hK]
  refine (range'_searchSorted (m.blockOfGroup_sorted hnz) K (K + 1)).trans (List.Perm.of_eq ?_)
  rw [hlen]
  refine List.filter_congr fun g _ => ?_
  rw [Bool.eq_iff_iff, Bool.and_eq_true, decide_eq_true_eq, decide_eq_true_eq, beq_iff_eq]
  omega

theorem bins_nodup_of_entries [Inhabited F] {K : Nat} (hK : K < m.nblocks blockElems) :
    (((m.bsbCsr blockElems).groups K).map fun g =>
      (m.bsbCsr blockElems).bins.getD g 0).Nodup := by
  refine List.Nodup.map_on ?_ List.nodup_range'
  intro g hg g' hg' hbin
  obtain ⟨hlt, hblock⟩ := List.mem_filter.mp ((m.groups_perm hnz hK).mem_iff.mp hg)
  obtain ⟨hlt', hblock'⟩ := List.mem_filter.mp ((m.groups_perm hnz hK).mem_iff.mp hg')
  have hin := List.mem_range.mp hlt
  have hin' := List.mem_range.mp hlt'
  rw [m.getD_bins hnz hin, m.getD_bins hnz hin'] at hbin
  rw [m.getD_blockOfGroup hnz hin, beq_iff_eq] at hblock
  rw [m.getD_blockOfGroup hnz hin', beq_iff_eq] at hblock'
  -- two groups with one key
  have hkey : (m.keys blockElems).getD (groupPtr (m.keys blockElems) g) 0 =
      (m.keys blockElems).getD (groupPtr (m.keys blockElems) g') 0 := by
    rw [m.getD_keys (m.groupPtr_lt hnz hin), m.getD_keys (m.groupPtr_lt hnz hin'), entryKey, entryKey,
      hblock, hblock', hbin]
  have hsorted := List.pairwise_iff_getElem.mp
    (groupKeys_sorted (@keys_sorted F m blockElems))
  rw [groupPtr_eq hin, groupPtr_eq hin'] at hkey
  by_contra hne
  obtain hless | hless := Nat.lt_or_gt_of_ne hne
  · have h := hsorted g g' (by simpa using hin) (by simpa using hin') hless
    simp only [List.getElem_map] at h
    omega
  · have h := hsorted g' g (by simpa using hin') (by simpa using hin) hless
    simp only [List.getElem_map] at h
    omega

/-- An entry of a group, as the arrays give it. -/
theorem entry_of_mem [Inhabited F] (hpos : 1 ≤ blockElems) (hmax : blockElems ≤ 2 ^ 16) {g k : Nat}
    (hg : g < (groupStarts (m.keys blockElems)).length)
    (hk : k ∈ (m.bsbCsr blockElems).positions g) :
    m.entryBlock blockElems (m.entryAt blockElems k) = (m.blockOfGroup blockElems).getD g 0 ∧
      ((m.blockOfGroup blockElems).getD g 0 * blockElems + (m.bsbCsr blockElems).idx.getD k 0,
        (m.bsbCsr blockElems).bins.getD g 0, (m.bsbCsr blockElems).data.getD k default) =
      m.entry (m.entryAt blockElems k) := by
  rw [BsbCsr.positions, m.getD_binPtr hnz, m.getD_binPtr hnz] at hk
  have hin := List.mem_range'_1.mp hk
  have hlt : k < m.entryPixels.length := by
    have hmem : k ∈ List.range (m.keys blockElems).length := by
      rw [← flatMap_groups (m.keys_ne_nil hnz)]
      exact List.mem_flatMap.mpr ⟨g, List.mem_range.mpr hg, hk⟩
    rw [length_keys] at hmem
    exact List.mem_range.mp hmem
  have hstart := m.groupPtr_lt hnz hg
  have hkey := group_key (m.keys_ne_nil hnz) hg hin.1 (by omega)
  rw [m.getD_keys hlt, m.getD_keys hstart] at hkey
  have hblock : m.entryBlock blockElems (m.entryAt blockElems k) =
      (m.blockOfGroup blockElems).getD g 0 := by
    rw [m.getD_blockOfGroup hnz hg, ← m.entryKey_div (m.entryAt_lt hlt), hkey,
      m.entryKey_div (m.entryAt_lt hstart)]
  have hbin : m.entryBin (m.entryAt blockElems k) = (m.bsbCsr blockElems).bins.getD g 0 := by
    rw [m.getD_bins hnz hg, ← m.entryKey_mod (m.entryAt_lt hlt), hkey,
      m.entryKey_mod (m.entryAt_lt hstart)]
  have hidx : (m.bsbCsr blockElems).idx.getD k 0 =
      m.entryPixels.getD (m.entryAt blockElems k) 0 % blockElems := by
    rw [bsbCsr, if_neg hnz]
    simp only [List.map_map]
    rw [m.getD_order _ _ hlt]
    exact Nat.mod_eq_of_lt ((Nat.mod_lt _ hpos).trans_le hmax)
  have hdata : (m.bsbCsr blockElems).data.getD k default =
      m.data.getD (m.entryAt blockElems k) default := by
    rw [bsbCsr, if_neg hnz]
    exact m.getD_order _ _ hlt
  refine ⟨hblock, ?_⟩
  rw [hidx, ← hbin, hdata, ← hblock, entryBlock, Nat.div_add_mod']
  rfl

end

/-- A matrix without entries has no groups. -/
theorem groups_nil [Inhabited F] (hnz : m.entryPixels.length = 0) {K : Nat}
    (hK : K < m.nblocks blockElems) : (m.bsbCsr blockElems).groups K = [] := by
  rw [BsbCsr.groups, bsbCsr, if_pos hnz]
  simp [List.getD_eq_getElem?_getD, show K < m.nblocks blockElems + 1 by omega, hK]

/-- No bin is listed twice in a block. -/
theorem bins_nodup [Inhabited F] {K : Nat} (hK : K < m.nblocks blockElems) :
    (((m.bsbCsr blockElems).groups K).map fun g =>
      (m.bsbCsr blockElems).bins.getD g 0).Nodup := by
  by_cases hnz : m.entryPixels.length = 0
  · rw [m.groups_nil hnz hK]
    exact List.nodup_nil
  · exact m.bins_nodup_of_entries hnz hK

/-- The pixels of a block. -/
theorem filter_block (hpos : 1 ≤ blockElems) (n K : Nat) :
    ((List.range n).filter fun p => p / blockElems == K).Perm
      (List.range' (K * blockElems) (min blockElems (n - K * blockElems))) := by
  refine (List.perm_ext_iff_of_nodup (List.nodup_range.filter _) List.nodup_range').mpr fun p => ?_
  have hle := @Nat.le_div_iff_mul_le blockElems K p hpos
  have hlt := @Nat.div_lt_iff_lt_mul blockElems p (K + 1) hpos
  rw [Nat.succ_mul] at hlt
  rw [List.mem_filter, List.mem_range, beq_iff_eq, List.mem_range'_1]
  omega

/-- Block by block, the arrays hold the entries of the matrix. -/
theorem blockEntries_perm [Inhabited F] (hpos : 1 ≤ blockElems) (hmax : blockElems ≤ 2 ^ 16) {K : Nat}
    (hK : K < m.nblocks blockElems) :
    ((m.bsbCsr blockElems).blockEntries K).Perm
      ((List.range' (K * blockElems) (min blockElems (m.npix - K * blockElems))).flatMap
        m.pixelEntries) := by
  have hblock : ((List.range' (K * blockElems) (min blockElems (m.npix - K * blockElems))).flatMap
      m.pixelEntries).Perm
      (((List.range m.entryPixels.length).filter fun k => m.entryBlock blockElems k == K).map
        m.entry) := by
    refine ((filter_block hpos m.npix K).symm.flatMap_right _).trans (List.Perm.of_eq ?_)
    have hentries := m.entries_eq
    rw [entries] at hentries
    rw [← @filter_flatMap _ _ _ _ _ fun e : Nat × Nat × F => e.1 / blockElems == K, hentries,
      List.filter_map]
    · rfl
    · intro p _ e he
      obtain ⟨c, -, rfl⟩ := List.mem_map.mp he
      rfl
  refine List.Perm.trans ?_ hblock.symm
  by_cases hnz : m.entryPixels.length = 0
  · rw [BsbCsr.blockEntries, m.groups_nil hnz hK, hnz]
    exact List.Perm.refl _
  -- the groups of the block, then their entries by place, then by entry
  have hgroups := m.groups_perm hnz hK
  have hread : ∀ g ∈ (m.bsbCsr blockElems).groups K,
      ((m.bsbCsr blockElems).positions g).map (fun k =>
        (K * (m.bsbCsr blockElems).blockElems + (m.bsbCsr blockElems).idx.getD k 0,
          (m.bsbCsr blockElems).bins.getD g 0, (m.bsbCsr blockElems).data.getD k default)) =
      ((m.bsbCsr blockElems).positions g).map fun k => m.entry (m.entryAt blockElems k) := by
    intro g hg
    obtain ⟨hlt, hgK⟩ := List.mem_filter.mp (hgroups.mem_iff.mp hg)
    refine List.map_congr_left fun k hk => ?_
    have hent := (m.entry_of_mem hnz hpos hmax (List.mem_range.mp hlt) hk).2
    rw [beq_iff_eq] at hgK
    have helems : (m.bsbCsr blockElems).blockElems = blockElems := by
      rw [bsbCsr, if_neg hnz]
    rw [helems, ← hent, hgK]
  have hplaces : (List.range (groupStarts (m.keys blockElems)).length).flatMap
      (m.bsbCsr blockElems).positions = List.range m.entryPixels.length := by
    rw [← @length_keys F m blockElems, ← flatMap_groups (m.keys_ne_nil hnz)]
    refine List.flatMap_congr fun g _ => ?_
    rw [BsbCsr.positions, m.getD_binPtr hnz, m.getD_binPtr hnz]
  have horder : (List.range m.entryPixels.length).map (m.entryAt blockElems) =
      m.entryOrder blockElems := by
    rw [← @length_entryOrder F m blockElems, List.range_eq_range']
    refine (map_range'_getD _ 0 (by simp)).trans ?_
    simp
  have hfilter : ((List.range (groupStarts (m.keys blockElems)).length).filter fun g =>
      (m.blockOfGroup blockElems).getD g 0 == K).flatMap (m.bsbCsr blockElems).positions =
      (List.range m.entryPixels.length).filter fun k =>
        m.entryBlock blockElems (m.entryAt blockElems k) == K := by
    rw [← hplaces]
    refine (filter_flatMap fun g hg k hk => ?_).symm
    rw [(m.entry_of_mem hnz hpos hmax (List.mem_range.mp hg) hk).1]
  have hsorted : ((List.range m.entryPixels.length).filter fun k =>
      m.entryBlock blockElems (m.entryAt blockElems k) == K).map (m.entryAt blockElems) =
      (m.entryOrder blockElems).filter fun k => m.entryBlock blockElems k == K := by
    rw [← horder, List.filter_map]
    rfl
  have hsplit : ∀ ks : List Nat, ks.map (fun k => m.entry (m.entryAt blockElems k)) =
      (ks.map (m.entryAt blockElems)).map m.entry := by
    intro ks
    rw [List.map_map]
    rfl
  rw [BsbCsr.blockEntries, List.flatMap_congr hread, ← List.map_flatMap, hsplit]
  refine List.Perm.map m.entry ?_
  refine ((hgroups.flatMap_right _).map _).trans ?_
  rw [hfilter, hsorted]
  exact m.entryOrder_perm.filter _

/-- The arrays hold every entry of the matrix once. -/
theorem bsbCsr_entries [Inhabited F] (hpos : 1 ≤ blockElems) (hmax : blockElems ≤ 2 ^ 16) :
    (m.bsbCsr blockElems).entries.Perm m.entries := by
  have hlen : (m.bsbCsr blockElems).blkPtr.length - 1 = m.nblocks blockElems := by
    rw [bsbCsr]
    split <;> simp
  rw [BsbCsr.entries, hlen]
  refine (List.Perm.flatMap_left _ fun K hK =>
    m.blockEntries_perm hpos hmax (List.mem_range.mp hK)).trans (List.Perm.of_eq ?_)
  have htiles := flatMap_tiles hpos 0 m.npix
  rw [strided_zero hpos, List.flatMap_map, Nat.sub_zero, ← List.range_eq_range'] at htiles
  rw [← List.flatMap_assoc, entries, ← htiles]
  congr 1
  refine List.flatMap_congr fun K _ => ?_
  congr 1
  omega

/-- An index of a place in a block fits 16 bits. -/
theorem idx_lt [Inhabited F] {i : Nat} (hi : i ∈ (m.bsbCsr blockElems).idx) : i < 2 ^ 16 := by
  rw [bsbCsr] at hi
  split at hi
  · exact absurd hi List.not_mem_nil
  · obtain ⟨p, -, rfl⟩ := List.mem_map.mp hi
    exact Nat.mod_lt _ (by decide)

theorem length_bsbCsr [Inhabited F] : (m.bsbCsr blockElems).idx.length = m.indices.length ∧
    (m.bsbCsr blockElems).data.length = m.indices.length := by
  rw [← m.length_entryPixels, bsbCsr]
  by_cases hnz : m.entryPixels.length = 0
  · simp [hnz]
  · simp [hnz, m.length_entryOrder]

end NormalMatrix

end Bslz4ToSparse.Matrix
