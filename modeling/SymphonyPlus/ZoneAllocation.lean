import SymphonyPlus.Zones

/-! Zone allocation is sound: what the inodes of a volume refer to is exactly what its bitmap marks,
over every sequence of `_bmap` and `truncate` calls. -/

namespace SymphonyPlus.Minix

open Function TableTree

/-- What `read_super` checks, and that it has read all bitmap blocks. -/
structure Mounted (s : SuperBlock) : Prop where
  positive : 0 < s.firstDataZone
  small : s.nzones < 65536
  covered : s.nzones - s.firstDataZone + 1 ≤ s.zmapBlocks * 8192
  maps : ∀ index < s.zmapBlocks, (s.zmap index).isSome

def Volume.inRange (d : Volume) (zone : Nat) : Prop :=
  d.super.firstDataZone ≤ zone ∧ zone < d.super.nzones

def Volume.bitSet (d : Volume) (bit : Nat) : Bool :=
  match d.super.mapOf bit with
  | none => false
  | some map => ByteBits.test map (bit % 8192)

def Volume.marked (d : Volume) (zone : Nat) : Bool := d.bitSet (d.super.bit zone)

def Inode.zones (tables : Tables Nat) (inode : Inode) : List Nat :=
  (List.range 9).flatMap fun slot => reach 0 512 tables (slot - 6) (inode.zone slot)

def Volume.zones (d : Volume) (files : List Nat) : List Nat :=
  files.flatMap fun n => (d.inodes n).zones d.blocks

structure Consistent (d : Volume) (files : List Nat) : Prop where
  mounted : Mounted d.super
  distinct : files.Nodup
  kinds : ∀ n ∈ files, isRegularOrDirectory (d.inodes n).mode = true
  once : (d.zones files).Nodup
  inside : ∀ zone ∈ d.zones files, d.inRange zone
  marks : ∀ zone, d.inRange zone → (d.marked zone = true ↔ zone ∈ d.zones files)

/-! The bitmap. -/

theorem bit_place {n m : Nat} (block : n >>> 13 = m >>> 13) (rest : n % 8192 = m % 8192) : n = m := by
  rw [Nat.shiftRight_eq_div_pow, Nat.shiftRight_eq_div_pow] at block
  omega

theorem bitSet_setMap {d : Volume} {n : Nat} {map : ByteBits.Bytes} (here : (d.super.mapOf n).isSome)
    (m : Nat) : (d.setMap (n >>> 13) map).bitSet m =
      if m >>> 13 = n >>> 13 then ByteBits.test map (m % 8192) else d.bitSet m := by
  have covered : ¬ d.super.zmapBlocks ≤ n >>> 13 := fun outside => by
    simp [SuperBlock.mapOf, outside] at here
  by_cases same : m >>> 13 = n >>> 13
  · simp [Volume.bitSet, SuperBlock.mapOf, Volume.setMap, same, covered]
  · simp [Volume.bitSet, SuperBlock.mapOf, Volume.setMap, same]

theorem bitSet_taken {d : Volume} {n : Nat} {map : ByteBits.Bytes} (here : d.super.mapOf n = some map)
    (m : Nat) : (d.setMap (n >>> 13) (ByteBits.set map (n % 8192))).bitSet m =
      (decide (m = n) || d.bitSet m) := by
  rw [bitSet_setMap (by simp [here])]
  split
  · rename_i block
    have old : d.bitSet m = ByteBits.test map (m % 8192) := by
      simp only [SuperBlock.mapOf] at here
      simp [Volume.bitSet, SuperBlock.mapOf, block, here]
    rw [ByteBits.test_set, old]
    congr 1
    exact decide_eq_decide.mpr ⟨bit_place block, fun same => by rw [same]⟩
  · rename_i block
    have different : m ≠ n := fun same => block (by rw [same])
    simp [different]

theorem bitSet_freed {d : Volume} {n : Nat} {map : ByteBits.Bytes} (here : d.super.mapOf n = some map)
    (m : Nat) : (d.setMap (n >>> 13) (ByteBits.clear map (n % 8192))).bitSet m =
      (decide (m ≠ n) && d.bitSet m) := by
  rw [bitSet_setMap (by simp [here])]
  split
  · rename_i block
    have old : d.bitSet m = ByteBits.test map (m % 8192) := by
      simp only [SuperBlock.mapOf] at here
      simp [Volume.bitSet, SuperBlock.mapOf, block, here]
    rw [ByteBits.test_clear, old]
    congr 1
    exact decide_eq_decide.mpr
      (not_congr ⟨bit_place block, fun same => by rw [same]⟩)
  · rename_i block
    have different : m ≠ n := fun same => block (by rw [same])
    simp [different]

theorem mapOf_some {s : SuperBlock} (mounted : Mounted s) {zone : Nat} (inside : zone < s.nzones) :
    ∃ map, s.mapOf (s.bit zone) = some map := by
  have covered := mounted.covered
  have low : ¬ s.zmapBlocks ≤ s.bit zone >>> 13 := by
    rw [SuperBlock.bit, Nat.shiftRight_eq_div_pow]
    omega
  rw [SuperBlock.mapOf, if_neg low]
  exact Option.isSome_iff_exists.mp (mounted.maps _ (by omega))

theorem mounted_setMap {d : Volume} (mounted : Mounted d.super) (index : Nat)
    (map : ByteBits.Bytes) : Mounted (d.setMap index map).super := by
  refine ⟨mounted.positive, mounted.small, mounted.covered, fun i bound => ?_⟩
  by_cases same : i = index
  · simp [Volume.setMap, same]
  · simpa [Volume.setMap, same] using mounted.maps i bound

theorem bit_inj {d : Volume} {z w : Nat} (hz : d.inRange z) (hw : d.inRange w)
    (same : d.super.bit z = d.super.bit w) : z = w := by
  simp only [Volume.inRange, SuperBlock.bit] at *
  omega

structure Taken (d : Volume) (zone : Nat) (d' : Volume) : Prop where
  range : d.inRange zone
  free : d.marked zone = false
  bits : ∀ bit, d'.bitSet bit = (decide (bit = d.super.bit zone) || d.bitSet bit)
  nzones : d'.super.nzones = d.super.nzones
  first : d'.super.firstDataZone = d.super.firstDataZone
  mounted : Mounted d'.super
  inodes : d'.inodes = d.inodes
  blocks : d'.blocks = update d.blocks zone fun _ => 0

theorem newBlockFrom_spec (buffer : Nat → Bool) {d : Volume} (mounted : Mounted d.super)
    (fuel zone : Nat) (low : d.super.firstDataZone ≤ zone) (high : zone + fuel ≤ d.super.nzones) :
    newBlockFrom buffer d fuel zone = (0, d) ∨
      Taken d (newBlockFrom buffer d fuel zone).1 (newBlockFrom buffer d fuel zone).2 := by
  induction fuel generalizing zone with
  | zero => exact .inl rfl
  | succ fuel ih =>
      obtain ⟨map, here⟩ := mapOf_some mounted (show zone < d.super.nzones by omega)
      simp only [newBlockFrom, here]
      split
      · exact ih (zone + 1) (by omega) (by omega)
      · rename_i clear
        split
        · exact .inl rfl
        · refine .inr ⟨⟨low, by omega⟩, ?_, bitSet_taken here, rfl, rfl, mounted_setMap mounted _ _,
            rfl, rfl⟩
          simpa [Volume.marked, Volume.bitSet, here] using clear

theorem newBlock_spec (buffer : Nat → Bool) {d : Volume} (mounted : Mounted d.super) :
    newBlock buffer d = (0, d) ∨ Taken d (newBlock buffer d).1 (newBlock buffer d).2 := by
  by_cases order : d.super.firstDataZone ≤ d.super.nzones
  · exact newBlockFrom_spec buffer mounted _ _ (Nat.le_refl _) (by omega)
  · left
    rw [newBlock, Nat.sub_eq_zero_of_le (by omega)]
    rfl

structure Freed (d : Volume) (gone : List Nat) (d' : Volume) : Prop where
  bits : ∀ bit, d'.bitSet bit = (decide (bit ∉ gone.map d.super.bit) && d.bitSet bit)
  nzones : d'.super.nzones = d.super.nzones
  first : d'.super.firstDataZone = d.super.firstDataZone
  mounted : Mounted d'.super
  blocks : d'.blocks = d.blocks

theorem Freed.bit_eq {d d' : Volume} {gone : List Nat} (freed : Freed d gone d') :
    d'.super.bit = d.super.bit := by
  funext zone
  rw [SuperBlock.bit, SuperBlock.bit, freed.first]

theorem Freed.refl {d : Volume} (mounted : Mounted d.super) : Freed d [] d :=
  ⟨fun bit => by simp, rfl, rfl, mounted, rfl⟩

theorem Freed.trans {d d' d'' : Volume} {gone more : List Nat} (first : Freed d gone d')
    (second : Freed d' more d'') : Freed d (gone ++ more) d'' := by
  refine ⟨fun bit => ?_, second.nzones.trans first.nzones, second.first.trans first.first,
    second.mounted, second.blocks.trans first.blocks⟩
  rw [second.bits, first.bits, first.bit_eq, List.map_append, ← Bool.and_assoc]
  congr 1
  rw [← Bool.decide_and]
  exact decide_eq_decide.mpr (by rw [List.mem_append, not_or, and_comm])

theorem freeBlock_outside {d : Volume} {zone : Nat} (outside : ¬ d.inRange zone) :
    freeBlock d zone = d := by
  rw [freeBlock, if_pos]
  simp only [Volume.inRange] at outside
  omega

theorem freeBlock_spec {d : Volume} (mounted : Mounted d.super) {zone : Nat}
    (range : d.inRange zone) : Freed d [zone] (freeBlock d zone) := by
  obtain ⟨map, here⟩ := mapOf_some mounted range.2
  have inside : ¬ (zone < d.super.firstDataZone ∨ d.super.nzones ≤ zone) := by
    have := range.1
    have := range.2
    omega
  simp only [freeBlock, if_neg inside, here]
  refine ⟨fun bit => ?_, rfl, rfl, mounted_setMap mounted _ _, rfl⟩
  rw [bitSet_freed here]
  simp

@[simp] theorem freeBlock_inodes (d : Volume) (zone : Nat) : (freeBlock d zone).inodes = d.inodes := by
  simp only [freeBlock]
  split
  · rfl
  · split <;> rfl

/-! What the inodes refer to. -/

theorem slot_mem {tables : Tables Nat} {inode : Inode} {slot zone : Nat} (bound : slot < 9)
    (inside : zone ∈ reach 0 512 tables (slot - 6) (inode.zone slot)) : zone ∈ inode.zones tables :=
  List.mem_flatMap.mpr ⟨slot, List.mem_range.mpr bound, inside⟩

theorem file_mem {d : Volume} {files : List Nat} {n zone : Nat} (member : n ∈ files)
    (inside : zone ∈ (d.inodes n).zones d.blocks) : zone ∈ d.zones files :=
  List.mem_flatMap.mpr ⟨n, member, inside⟩

theorem zones_outside {tables : Tables Nat} {inode : Inode} {zone : Nat} {entries : Nat → Nat}
    (outside : zone ∉ inode.zones tables) :
    inode.zones (update tables zone entries) = inode.zones tables :=
  List.flatMap_congr fun _ slot =>
    reach_outside fun inside => outside (slot_mem (List.mem_range.mp slot) inside)

theorem Consistent.own {d : Volume} {files : List Nat} (consistent : Consistent d files) {n : Nat}
    (member : n ∈ files) : ((d.inodes n).zones d.blocks).Nodup :=
  (List.nodup_flatMap.mp consistent.once).1 n member

theorem Consistent.apart {d : Volume} {files : List Nat} (consistent : Consistent d files) {n m : Nat}
    (hn : n ∈ files) (hm : m ∈ files) (different : m ≠ n) {zone : Nat}
    (inside : zone ∈ (d.inodes n).zones d.blocks) : zone ∉ (d.inodes m).zones d.blocks :=
  fun other => different (mem_one consistent.once hm hn other inside)

theorem Taken.fresh {d d' : Volume} {files : List Nat} {zone : Nat} (taken : Taken d zone d')
    (consistent : Consistent d files) : zone ∉ d.zones files := fun inside => by
  have marked := (consistent.marks zone taken.range).mpr inside
  simp [taken.free] at marked

theorem Taken.positive {d d' : Volume} {zone : Nat} (taken : Taken d zone d')
    (mounted : Mounted d.super) : zone ≠ 0 := fun same => by
  have := taken.range.1
  have := mounted.positive
  omega

theorem Taken.short {d d' : Volume} {zone : Nat} (taken : Taken d zone d')
    (mounted : Mounted d.super) : unsignedShort zone = zone :=
  Nat.mod_eq_of_lt (Nat.lt_trans taken.range.2 mounted.small)

/-- A zone that was taken and is now referred to once more than before. -/
theorem Taken.consistent {d d₁ d' : Volume} {files : List Nat} {zone : Nat} (taken : Taken d zone d₁)
    (consistent : Consistent d files) (super : d'.super = d₁.super)
    (kinds : ∀ n ∈ files, (d'.inodes n).mode = (d.inodes n).mode)
    (grown : (d'.zones files).Perm (zone :: d.zones files)) : Consistent d' files := by
  have ranges : ∀ z, d'.inRange z ↔ d.inRange z := fun z => by
    rw [Volume.inRange, Volume.inRange, super, taken.nzones, taken.first]
  refine ⟨super ▸ taken.mounted, consistent.distinct, fun n member => ?_, ?_, fun z inside => ?_,
    fun z range => ?_⟩
  · rw [kinds n member]
    exact consistent.kinds n member
  · exact grown.nodup_iff.mpr (List.nodup_cons.mpr ⟨taken.fresh consistent, consistent.once⟩)
  · rcases List.mem_cons.mp (grown.mem_iff.mp inside) with rfl | old
    · exact (ranges z).mpr taken.range
    · exact (ranges z).mpr (consistent.inside z old)
  · have range := (ranges z).mp range
    have bit : d'.super.bit z = d.super.bit z := by
      rw [SuperBlock.bit, SuperBlock.bit, super, taken.first]
    have bits : d'.bitSet (d.super.bit z) = d₁.bitSet (d.super.bit z) := by
      rw [Volume.bitSet, Volume.bitSet, super]
    rw [grown.mem_iff, List.mem_cons, ← consistent.marks z range, Volume.marked, bit, bits,
      taken.bits, Bool.or_eq_true, decide_eq_true_eq]
    exact or_congr_left ⟨bit_inj range taken.range, fun same => by rw [same]⟩

theorem zones_grow {d d' : Volume} {files : List Nat} {n zone : Nat} (distinct : files.Nodup)
    (member : n ∈ files)
    (others : ∀ m ∈ files, m ≠ n → (d'.inodes m).zones d'.blocks = (d.inodes m).zones d.blocks)
    (own : ((d'.inodes n).zones d'.blocks).Perm (zone :: (d.inodes n).zones d.blocks)) :
    (d'.zones files).Perm (zone :: d.zones files) :=
  flatMap_grow distinct member (e := [zone]) others own

/-! One creating step of `_bmap`. -/

theorem zones_slot {tables : Tables Nat} {inode inode' : Inode} {slot zone : Nat} (bound : slot < 9)
    (empty : inode.zone slot = 0) (fresh : zone ∉ inode.zones tables) (present : zone ≠ 0)
    (filled : inode'.zone = update inode.zone slot zone) :
    (inode'.zones (update tables zone fun _ => 0)).Perm (zone :: inode.zones tables) := by
  refine flatMap_grow List.nodup_range (List.mem_range.mpr bound) (e := [zone]) ?_ ?_
  · intro other inside different
    rw [filled, update_of_ne different]
    exact reach_outside fun found => fresh (slot_mem (List.mem_range.mp inside) found)
  · rw [filled, update_self, empty, reach_null, reach_blank _ present]
    · exact List.Perm.refl _
    · exact fun i _ => by rw [update_self]

theorem zones_table {tables : Tables Nat} {inode : Inode} {slot table index zone : Nat}
    (bound : slot < 9) (isTable : IsTable 0 512 tables (slot - 6) (inode.zone slot) table)
    (entry : index < 512) (empty : tables table index = 0) (nodup : (inode.zones tables).Nodup)
    (fresh : zone ∉ inode.zones tables) (present : zone ≠ 0) :
    (inode.zones (write (update tables zone fun _ => 0) table index zone)).Perm
      (zone :: inode.zones tables) := by
  have inRange := List.mem_range.mpr bound
  have same : ∀ slot < 9, reach 0 512 (update tables zone fun _ => 0) (slot - 6) (inode.zone slot) =
      reach 0 512 tables (slot - 6) (inode.zone slot) := fun slot bound =>
    reach_outside fun found => fresh (slot_mem bound found)
  have differs : table ≠ zone := fun eq => fresh (slot_mem bound (eq ▸ isTable.mem))
  refine flatMap_grow List.nodup_range inRange (e := [zone]) ?_ ?_
  · intro other inside different
    have apart : table ∉ reach 0 512 tables (other - 6) (inode.zone other) := fun found =>
      different (mem_one nodup inside inRange found isTable.mem)
    rw [← same other (List.mem_range.mp inside)] at apart ⊢
    exact reach_outside apart
  · rw [← same slot bound]
    refine reach_write ?_ entry ?_ ?_ ?_ present ?_
    · refine isTable_congr isTable fun t inside i _ => ?_
      rw [update_of_ne fun eq : t = zone => fresh (slot_mem bound (eq ▸ inside))]
    · rw [update_of_ne differs, empty]
    · rw [same slot bound]
      exact (List.nodup_flatMap.mp nodup).1 slot inRange
    · rw [same slot bound]
      exact fun found => fresh (slot_mem bound found)
    · exact fun i _ => by rw [update_self]

theorem Taken.slot {d d₁ : Volume} {files : List Nat} {n slot zone : Nat} {inode : Inode}
    (taken : Taken d zone d₁) (consistent : Consistent d files) (member : n ∈ files)
    (bound : slot < 9) (empty : (d.inodes n).zone slot = 0)
    (filled : inode.zone = update (d.inodes n).zone slot zone)
    (kind : inode.mode = (d.inodes n).mode) :
    Consistent (d₁.setInode n inode) files := by
  have fresh := taken.fresh consistent
  have blocks : (d₁.setInode n inode).blocks = update d.blocks zone fun _ => 0 := taken.blocks
  refine taken.consistent consistent rfl (fun m inside => ?_)
    (zones_grow consistent.distinct member (fun m inside other => ?_) ?_)
  · by_cases same : m = n
    · simp [Volume.setInode, same, kind]
    · simp [Volume.setInode, same, taken.inodes]
  · have kept : (d₁.setInode n inode).inodes m = d.inodes m := by
      simp [Volume.setInode, other, taken.inodes]
    rw [kept, blocks]
    exact zones_outside fun found => fresh (file_mem inside found)
  · have own : (d₁.setInode n inode).inodes n = inode := by simp [Volume.setInode]
    rw [own, blocks]
    exact zones_slot bound empty (fun found => fresh (file_mem member found))
      (taken.positive consistent.mounted) filled

theorem Taken.table {d d₁ : Volume} {files : List Nat} {n slot table index zone : Nat}
    (taken : Taken d zone d₁) (consistent : Consistent d files) (member : n ∈ files)
    (bound : slot < 9) (isTable : IsTable 0 512 d.blocks (slot - 6) ((d.inodes n).zone slot) table)
    (entry : index < 512) (empty : d.blocks table index = 0) :
    Consistent { d₁ with blocks := write d₁.blocks table index zone } files := by
  have fresh := taken.fresh consistent
  have inside : table ∈ (d.inodes n).zones d.blocks := slot_mem bound isTable.mem
  refine taken.consistent consistent rfl (fun m _ => by rw [taken.inodes])
    (zones_grow consistent.distinct member (fun m file other => ?_) ?_)
  · have outside : table ∉ ((d.inodes m).zones (update d.blocks zone fun _ => 0)) := by
      rw [zones_outside fun found => fresh (file_mem file found)]
      exact consistent.apart member file other inside
    rw [taken.inodes, taken.blocks, write, zones_outside outside]
    exact zones_outside fun found => fresh (file_mem file found)
  · rw [taken.inodes, taken.blocks]
    exact zones_table bound isTable entry empty (consistent.own member)
      (fun found => fresh (file_mem member found)) (taken.positive consistent.mounted)

theorem slotZone_spec {d : Volume} {files : List Nat} (consistent : Consistent d files)
    (now : Nat) (buffer : Nat → Bool) {n slot : Nat} (member : n ∈ files) (bound : slot < 9)
    (create : Bool) : Consistent (slotZone now buffer d n slot create).2 files ∧
      (slotZone now buffer d n slot create).1 =
        ((slotZone now buffer d n slot create).2.inodes n).zone slot := by
  simp only [slotZone]
  split
  · rename_i wanted
    rcases newBlock_spec buffer consistent.mounted with none | taken
    · rw [none]
      exact ⟨consistent, wanted.2.symm⟩
    · have present := taken.positive consistent.mounted
      simp only [present, ↓reduceIte, taken.short consistent.mounted]
      exact ⟨taken.slot consistent member bound wanted.2 rfl rfl, by simp [Volume.setInode]⟩
  · exact ⟨consistent, rfl⟩

theorem tableZone_spec {d : Volume} {files : List Nat} (consistent : Consistent d files)
    (buffer : Nat → Bool) {n slot table index : Nat} (member : n ∈ files) (bound : slot < 9)
    (isTable : IsTable 0 512 d.blocks (slot - 6) ((d.inodes n).zone slot) table)
    (entry : index < 512) (create : Bool) :
    Consistent (tableZone buffer d table index create).2 files ∧
      (tableZone buffer d table index create).2.inodes = d.inodes ∧
      IsTable 0 512 (tableZone buffer d table index create).2.blocks (slot - 6)
        ((d.inodes n).zone slot) table ∧
      (tableZone buffer d table index create).1 =
        (tableZone buffer d table index create).2.blocks table index := by
  simp only [tableZone]
  split
  · rename_i wanted
    rcases newBlock_spec buffer consistent.mounted with none | taken
    · rw [none]
      exact ⟨consistent, rfl, isTable, wanted.2.symm⟩
    · have present := taken.positive consistent.mounted
      simp only [present, ↓reduceIte, taken.short consistent.mounted]
      refine ⟨taken.table consistent member bound isTable entry wanted.2, taken.inodes, ?_,
        by simp [write]⟩
      have fresh := taken.fresh consistent
      have same : reach 0 512 (update d.blocks (newBlock buffer d).1 fun _ => 0) (slot - 6)
          ((d.inodes n).zone slot) = reach 0 512 d.blocks (slot - 6) ((d.inodes n).zone slot) :=
        reach_outside fun found => fresh (file_mem member (slot_mem bound found))
      rw [taken.blocks]
      refine IsTable.update (isTable_congr isTable fun t inside i _ => ?_) ?_
      · rw [update_of_ne fun eq : t = (newBlock buffer d).1 =>
          fresh (file_mem member (slot_mem bound (eq ▸ inside)))]
      · rw [same]
        exact (List.nodup_flatMap.mp (consistent.own member)).1 slot (List.mem_range.mpr bound)
  · exact ⟨consistent, rfl, isTable, rfl⟩

theorem Consistent.valid {d : Volume} {files : List Nat} (consistent : Consistent d files) {zone : Nat}
    (known : zone = 0 ∨ zone ∈ d.zones files) : validZone d zone = true := by
  have range : zone = 0 ∨ d.inRange zone := known.imp_right (consistent.inside zone)
  rw [validZone, Bool.or_eq_true, Bool.and_eq_true]
  simpa [Volume.inRange] using range

theorem slot_known {d : Volume} {files : List Nat} {n slot : Nat} (member : n ∈ files)
    (bound : slot < 9) : (d.inodes n).zone slot = 0 ∨ (d.inodes n).zone slot ∈ d.zones files :=
  or_iff_not_imp_left.mpr fun present => file_mem member (slot_mem bound (root_mem present))

theorem entry_known {d : Volume} {files : List Nat} {n slot table index : Nat} (member : n ∈ files)
    (bound : slot < 9) (isTable : IsTable 0 512 d.blocks (slot - 6) ((d.inodes n).zone slot) table)
    (entry : index < 512) :
    d.blocks table index = 0 ∨ d.blocks table index ∈ d.zones files :=
  or_iff_not_imp_left.mpr fun present =>
    file_mem member (slot_mem bound (isTable.entry_mem entry present))

structure Mapped (files : List Nat) (zone : Int) (d : Volume) : Prop where
  consistent : Consistent d files
  known : ∃ z : Nat, zone = z ∧ (z = 0 ∨ z ∈ d.zones files)

theorem Mapped.of_known {d : Volume} {files : List Nat} (consistent : Consistent d files) {zone : Nat}
    (known : zone = 0 ∨ zone ∈ d.zones files) : Mapped files (bmapResult d zone) d :=
  ⟨consistent, zone, if_pos (consistent.valid known), known⟩

theorem Mapped.none {d : Volume} {files : List Nat} (consistent : Consistent d files) :
    Mapped files 0 d := ⟨consistent, 0, rfl, .inl rfl⟩

theorem Mapped.of_table {d : Volume} {files : List Nat} (consistent : Consistent d files)
    (buffer : Nat → Bool) {n slot table index : Nat} (member : n ∈ files) (bound : slot < 9)
    (isTable : IsTable 0 512 d.blocks (slot - 6) ((d.inodes n).zone slot) table)
    (entry : index < 512) (create : Bool) :
    Mapped files (bmapResult (tableZone buffer d table index create).2
      (tableZone buffer d table index create).1) (tableZone buffer d table index create).2 := by
  obtain ⟨consistent, inodes, isTable, result⟩ :=
    tableZone_spec consistent buffer member bound isTable entry create
  rw [← inodes] at isTable
  exact .of_known consistent (result ▸ entry_known member bound isTable entry)

theorem bmap_spec {d : Volume} {files : List Nat} (consistent : Consistent d files) (now : Nat)
    (buffer : Nat → Bool) {n : Nat} (member : n ∈ files) (block : Int) (create : Bool)
    {zone : Int} {d' : Volume} (mapped : bmap now buffer d n block create = some (zone, d')) :
    Mapped files zone d' := by
  simp only [bmap] at mapped
  split at mapped
  · cases mapped
  · rename_i range
    split at mapped
    · rename_i direct
      obtain ⟨consistent, result⟩ :=
        slotZone_spec consistent now buffer member (by omega : block.toNat < 9) create
      obtain ⟨rfl, rfl⟩ := Prod.mk.inj (Option.some.inj mapped)
      exact .of_known consistent (result ▸ slot_known member (by omega))
    · split at mapped
      · rename_i direct single
        obtain ⟨consistent, result⟩ :=
          slotZone_spec consistent now buffer member (by decide : 7 < 9) create
        have valid := consistent.valid (slot_known member (by decide : 7 < 9))
        rw [← result] at valid
        split at mapped
        · obtain ⟨rfl, rfl⟩ := Prod.mk.inj (Option.some.inj mapped)
          exact .none consistent
        · rename_i present
          simp only [valid, Bool.not_true, Bool.false_eq_true, ↓reduceIte] at mapped
          obtain ⟨rfl, rfl⟩ := Prod.mk.inj (Option.some.inj mapped)
          refine .of_table consistent buffer member (by decide : 7 < 9) ?_ (by omega) create
          exact ⟨result ▸ present, .inl result⟩
      · rename_i direct single
        obtain ⟨consistent, result⟩ :=
          slotZone_spec consistent now buffer member (by decide : 8 < 9) create
        have valid := consistent.valid (slot_known member (by decide : 8 < 9))
        rw [← result] at valid
        split at mapped
        · obtain ⟨rfl, rfl⟩ := Prod.mk.inj (Option.some.inj mapped)
          exact .none consistent
        · rename_i present
          simp only [valid, Bool.not_true, Bool.false_eq_true, ↓reduceIte] at mapped
          have outer : (block.toNat - 7 - 512) >>> 9 < 512 := by
            rw [Nat.shiftRight_eq_div_pow]
            omega
          have inner : (block.toNat - 7 - 512) &&& 511 < 512 :=
            Nat.lt_succ_of_le Nat.and_le_right
          have isTable : IsTable 0 512 (slotZone now buffer d n 8 create).2.blocks (8 - 6)
              (((slotZone now buffer d n 8 create).2.inodes n).zone 8)
              (slotZone now buffer d n 8 create).1 := ⟨result ▸ present, .inl result⟩
          obtain ⟨consistent, inodes, isTable, entry⟩ :=
            tableZone_spec consistent buffer member (by decide : 8 < 9) isTable outer create
          rw [← inodes] at isTable result
          have valid := consistent.valid (entry_known member (by decide : 8 < 9) isTable outer)
          rw [← entry] at valid
          split at mapped
          · obtain ⟨rfl, rfl⟩ := Prod.mk.inj (Option.some.inj mapped)
            exact .none consistent
          · rename_i nonzero
            simp only [valid, Bool.not_true, Bool.false_eq_true, ↓reduceIte] at mapped
            obtain ⟨rfl, rfl⟩ := Prod.mk.inj (Option.some.inj mapped)
            refine .of_table consistent buffer member (by decide : 8 < 9) ?_ inner create
            have root : _ ≠ 0 := isTable.1
            refine ⟨root, .inr ⟨_, outer, ?_⟩⟩
            rw [← result, ← entry]
            exact ⟨nonzero, .inl rfl⟩

/-! `truncate`. -/

theorem Freed.congr {d d' : Volume} {gone gone' : List Nat} (freed : Freed d gone d')
    (same : ∀ zone, zone ∈ gone ↔ zone ∈ gone') : Freed d gone' d' := by
  refine ⟨fun bit => ?_, freed.nzones, freed.first, freed.mounted, freed.blocks⟩
  rw [freed.bits]
  congr 1
  exact decide_eq_decide.mpr (by simp only [List.mem_map, same])

theorem Freed.inRange {d d' : Volume} {gone : List Nat} (freed : Freed d gone d') (zone : Nat) :
    d'.inRange zone ↔ d.inRange zone := by
  rw [Volume.inRange, Volume.inRange, freed.first, freed.nzones]

def FreesTree (level : Nat) (free : Volume → Nat → Volume) : Prop :=
  ∀ d zone, Mounted d.super → (∀ z ∈ reach 0 512 d.blocks level zone, d.inRange z) →
    Freed d (reach 0 512 d.blocks level zone) (free d zone)

theorem freesTree_freeBlock : FreesTree 0 freeBlock := by
  intro d zone mounted inside
  by_cases absent : zone = 0
  · have outside : ¬ d.inRange zone := fun range => by
      have := range.1
      have := mounted.positive
      omega
    rw [freeBlock_outside outside, absent, reach_null]
    exact .refl mounted
  · have only : reach 0 512 d.blocks 0 zone = [zone] := by simp [reach, absent]
    rw [only] at inside ⊢
    exact freeBlock_spec mounted (inside zone List.mem_cons_self)

theorem FreesTree.entries {level : Nat} {free : Volume → Nat → Volume} (frees : FreesTree level free)
    (entries : List Nat) (d : Volume) (mounted : Mounted d.super)
    (inside : ∀ z ∈ entries.flatMap (reach 0 512 d.blocks level), d.inRange z) :
    Freed d (entries.flatMap (reach 0 512 d.blocks level))
      (entries.foldl (fun d entry => if entry = 0 then d else free d entry) d) := by
  induction entries generalizing d with
  | nil => exact .refl mounted
  | cons entry rest ih =>
      rw [List.flatMap_cons] at inside ⊢
      have first : Freed d (reach 0 512 d.blocks level entry)
          (if entry = 0 then d else free d entry) := by
        split
        · rename_i absent
          rw [absent, reach_null]
          exact .refl mounted
        · exact frees d entry mounted fun z here => inside z (List.mem_append_left _ here)
      refine first.trans ?_
      rw [← first.blocks]
      refine ih _ first.mounted fun z later => (first.inRange z).mpr ?_
      rw [first.blocks] at later
      exact inside z (List.mem_append_right _ later)

theorem FreesTree.table {level : Nat} {free : Volume → Nat → Volume} (frees : FreesTree level free) :
    FreesTree (level + 1) (freeTable free) := by
  intro d zone mounted inside
  by_cases absent : zone = 0
  · have invalid : validIndirect d zone = false := by
      have := mounted.positive
      simp [validIndirect, absent]
      omega
    rw [freeTable, invalid, absent, reach_null]
    exact .refl mounted
  · rw [reach, if_neg absent] at inside ⊢
    have range := inside zone List.mem_cons_self
    have valid : validIndirect d zone = true := by
      simp [validIndirect, range.1, range.2]
    have entries := frees.entries ((List.range 512).map (d.blocks zone)) d mounted fun z below => by
      rw [List.flatMap_map] at below
      exact inside z (List.mem_cons_of_mem _ below)
    rw [List.flatMap_map] at entries
    simp only [freeTable, valid, Bool.not_true, Bool.false_eq_true, ↓reduceIte]
    have last := freeBlock_spec entries.mounted ((entries.inRange zone).mpr range)
    refine (entries.trans last).congr fun z => ?_
    rw [List.mem_append, List.mem_singleton, List.mem_cons, or_comm]

theorem freesTree_freeInd : FreesTree 1 freeInd := freesTree_freeBlock.table

theorem freesTree_freeDind : FreesTree 2 freeDind := freesTree_freeInd.table

theorem foldl_inodes {free : Volume → Nat → Volume}
    (kept : ∀ d zone, (free d zone).inodes = d.inodes) (entries : List Nat) (d : Volume) :
    (entries.foldl (fun d entry => if entry = 0 then d else free d entry) d).inodes = d.inodes := by
  induction entries generalizing d with
  | nil => rfl
  | cons entry rest ih =>
      rw [List.foldl_cons, ih]
      split
      · rfl
      · exact kept d entry

theorem freeTable_inodes {free : Volume → Nat → Volume}
    (kept : ∀ d zone, (free d zone).inodes = d.inodes) (d : Volume) (zone : Nat) :
    (freeTable free d zone).inodes = d.inodes := by
  rw [freeTable]
  split
  · rfl
  · rw [freeBlock_inodes, foldl_inodes kept]

@[simp] theorem freeInd_inodes (d : Volume) (zone : Nat) : (freeInd d zone).inodes = d.inodes :=
  freeTable_inodes freeBlock_inodes d zone

@[simp] theorem freeDind_inodes (d : Volume) (zone : Nat) : (freeDind d zone).inodes = d.inodes :=
  freeTable_inodes freeInd_inodes d zone

theorem Freed.setInode {d d' : Volume} {gone : List Nat} (freed : Freed d gone d') (n : Nat)
    (inode : Inode) : Freed d gone (d'.setInode n inode) :=
  ⟨freed.bits, freed.nzones, freed.first, freed.mounted, freed.blocks⟩

/-- The loop over some direct slots frees their zones and empties them. -/
theorem freeSlots_spec {n : Nat} (slots : List Nat) (distinct : slots.Nodup) (d : Volume)
    (mounted : Mounted d.super)
    (inside : ∀ z ∈ slots.flatMap fun i => reach 0 512 d.blocks 0 ((d.inodes n).zone i), d.inRange z) :
    Freed d (slots.flatMap fun i => reach 0 512 d.blocks 0 ((d.inodes n).zone i))
      (freeSlots d n slots) ∧
    (∀ m, m ≠ n → (freeSlots d n slots).inodes m = d.inodes m) ∧
    ((freeSlots d n slots).inodes n).mode = (d.inodes n).mode ∧
    ∀ i, ((freeSlots d n slots).inodes n).zone i = if i ∈ slots then 0 else (d.inodes n).zone i := by
  induction slots generalizing d with
  | nil => exact ⟨.refl mounted, fun m _ => rfl, rfl, fun i => by simp [freeSlots]⟩
  | cons slot rest ih =>
      obtain ⟨fresh, distinct⟩ := List.nodup_cons.mp distinct
      rw [List.flatMap_cons] at inside ⊢
      let d₁ := if (d.inodes n).zone slot = 0 then d else
        (freeBlock d ((d.inodes n).zone slot)).setInode n { d.inodes n with
          zone := update (d.inodes n).zone slot 0 }
      have unfolded : freeSlots d n (slot :: rest) = freeSlots d₁ n rest := rfl
      have first : Freed d (reach 0 512 d.blocks 0 ((d.inodes n).zone slot)) d₁ := by
        have block := freesTree_freeBlock d ((d.inodes n).zone slot) mounted fun z here =>
          inside z (List.mem_append_left _ here)
        by_cases absent : (d.inodes n).zone slot = 0
        · simp only [d₁, absent, ↓reduceIte, reach_null]
          exact .refl mounted
        · simp only [d₁, absent, ↓reduceIte]
          exact block.setInode n _
      have others : ∀ m, m ≠ n → d₁.inodes m = d.inodes m := by
        intro m other
        by_cases absent : (d.inodes n).zone slot = 0
        · simp [d₁, absent]
        · simp [d₁, absent, Volume.setInode, other]
      have kind : (d₁.inodes n).mode = (d.inodes n).mode := by
        by_cases absent : (d.inodes n).zone slot = 0
        · simp [d₁, absent]
        · simp [d₁, absent, Volume.setInode]
      have own : ∀ i, (d₁.inodes n).zone i = if i = slot then 0 else (d.inodes n).zone i := by
        intro i
        by_cases absent : (d.inodes n).zone slot = 0
        · by_cases here : i = slot
          · simp [d₁, here, absent]
          · simp [d₁, here, absent]
        · simp [d₁, absent, Volume.setInode, update_apply]
      have kept : (rest.flatMap fun i => reach 0 512 d₁.blocks 0 ((d₁.inodes n).zone i)) =
          rest.flatMap fun i => reach 0 512 d.blocks 0 ((d.inodes n).zone i) := by
        refine List.flatMap_congr fun i later => ?_
        rw [first.blocks, own, if_neg fun same : i = slot => fresh (same ▸ later)]
      obtain ⟨second, others', kind', own'⟩ := ih distinct d₁ first.mounted fun z later => by
        rw [kept] at later
        exact (first.inRange z).mpr (inside z (List.mem_append_right _ later))
      rw [unfolded]
      refine ⟨kept ▸ first.trans second, fun m other => (others' m other).trans (others m other),
        kind'.trans kind, fun i => ?_⟩
      rw [own', own]
      by_cases here : i = slot
      · simp [here]
      · simp [here]

theorem inode_zones_eq (tables : Tables Nat) (inode : Inode) :
    inode.zones tables = ((List.range 7).flatMap fun i => reach 0 512 tables 0 (inode.zone i)) ++
      reach 0 512 tables 1 (inode.zone 7) ++ reach 0 512 tables 2 (inode.zone 8) := by
  have split : List.range 9 = List.range 7 ++ [7, 8] := rfl
  have direct : (List.range 7).flatMap (fun i => reach 0 512 tables (i - 6) (inode.zone i)) =
      (List.range 7).flatMap fun i => reach 0 512 tables 0 (inode.zone i) :=
    List.flatMap_congr fun i bound => by
      rw [Nat.sub_eq_zero_of_le (Nat.le_of_lt_succ (List.mem_range.mp bound))]
  rw [Inode.zones, split, List.flatMap_append, direct]
  simp

theorem zones_empty {tables : Tables Nat} {inode : Inode} (empty : ∀ i < 9, inode.zone i = 0) :
    inode.zones tables = [] :=
  List.flatMap_eq_nil_iff.mpr fun i bound => by rw [empty i (List.mem_range.mp bound), reach_null]

/-- An inode that gives up its zones, which are freed, leaves the volume consistent. -/
theorem Freed.consistent {d d' : Volume} {files : List Nat} {n : Nat}
    (freed : Freed d ((d.inodes n).zones d.blocks) d') (consistent : Consistent d files)
    (member : n ∈ files) (others : ∀ m, m ≠ n → d'.inodes m = d.inodes m)
    (kind : (d'.inodes n).mode = (d.inodes n).mode) (empty : ∀ i < 9, (d'.inodes n).zone i = 0) :
    Consistent d' files := by
  have split : (d.zones files).Perm ((d.inodes n).zones d.blocks ++ d'.zones files) := by
    refine flatMap_grow consistent.distinct member (fun m _ other => ?_) ?_
    · rw [others m other, freed.blocks]
    · rw [zones_empty empty, List.append_nil]
  have once := split.nodup_iff.mp consistent.once
  refine ⟨freed.mounted, consistent.distinct, fun m inside => ?_, once.of_append_right,
    fun z inside => ?_, fun z range => ?_⟩
  · by_cases same : m = n
    · rw [same, kind]
      exact consistent.kinds n member
    · rw [others m same]
      exact consistent.kinds m inside
  · exact (freed.inRange z).mpr
      (consistent.inside z (split.mem_iff.mpr (List.mem_append_right _ inside)))
  · have range := (freed.inRange z).mp range
    have still : d.super.bit z ∉ ((d.inodes n).zones d.blocks).map d.super.bit ↔
        z ∉ (d.inodes n).zones d.blocks := by
      refine not_congr ⟨fun found => ?_, fun found => List.mem_map_of_mem found⟩
      obtain ⟨w, inside, same⟩ := List.mem_map.mp found
      exact bit_inj (consistent.inside w (file_mem member inside)) range same ▸ inside
    rw [Volume.marked, freed.bit_eq, freed.bits, Bool.and_eq_true, decide_eq_true_eq, still]
    have marks := consistent.marks z range
    rw [Volume.marked, split.mem_iff, List.mem_append] at marks
    rw [marks]
    constructor
    · rintro ⟨outside, inside | inside⟩
      · exact absurd inside outside
      · exact inside
    · exact fun inside => ⟨fun here => (List.nodup_append.mp once).2.2 z here z inside rfl, .inr inside⟩

theorem truncate_spec {d : Volume} {files : List Nat} (consistent : Consistent d files) (now : Nat)
    {n : Nat} (member : n ∈ files) :
    Consistent (truncate now d n) files ∧ Freed d ((d.inodes n).zones d.blocks) (truncate now d n) ∧
      ∀ i < 9, ((truncate now d n).inodes n).zone i = 0 := by
  have inside : ∀ z ∈ (d.inodes n).zones d.blocks, d.inRange z := fun z here =>
    consistent.inside z (file_mem member here)
  rw [inode_zones_eq] at inside
  obtain ⟨direct, others, kind, slots⟩ := freeSlots_spec (n := n) (List.range 7) List.nodup_range d
    consistent.mounted fun z here =>
      inside z (List.mem_append_left _ (List.mem_append_left _ here))
  have seven : ((freeSlots d n (List.range 7)).inodes n).zone 7 = (d.inodes n).zone 7 := by
    simp [slots]
  have eight : ((freeSlots d n (List.range 7)).inodes n).zone 8 = (d.inodes n).zone 8 := by
    simp [slots]
  have single := freesTree_freeInd (freeSlots d n (List.range 7)) ((d.inodes n).zone 7)
    direct.mounted fun z here => by
      rw [direct.blocks] at here
      exact (direct.inRange z).mpr
        (inside z (List.mem_append_left _ (List.mem_append_right _ here)))
  rw [direct.blocks] at single
  have joined := direct.trans single
  have double := freesTree_freeDind _ ((d.inodes n).zone 8) joined.mounted fun z here => by
      rw [joined.blocks] at here
      exact (joined.inRange z).mpr (inside z (List.mem_append_right _ here))
  rw [joined.blocks] at double
  have whole := joined.trans double
  rw [← inode_zones_eq] at whole
  have unfolded : truncate now d n = (freeDind (freeInd (freeSlots d n (List.range 7))
      ((d.inodes n).zone 7)) ((d.inodes n).zone 8)).setInode n
        { (freeSlots d n (List.range 7)).inodes n with
          zone := update (update ((freeSlots d n (List.range 7)).inodes n).zone 7 0) 8 0
          size := 0, dirt := true, mtime := now, ctime := now } := by
    simp [truncate, consistent.kinds n member, seven, eight]
  have empty : ∀ i < 9, ((truncate now d n).inodes n).zone i = 0 := by
    intro i bound
    rw [unfolded]
    simp only [Volume.setInode, update_self, update_apply, slots, List.mem_range]
    split
    · rfl
    · split
      · rfl
      · rw [if_pos (by omega)]
  have freed : Freed d ((d.inodes n).zones d.blocks) (truncate now d n) := by
    rw [unfolded]
    exact whole.setInode n _
  refine ⟨freed.consistent consistent member (fun m other => ?_) ?_ empty, freed, empty⟩
  · rw [unfolded]
    simp [Volume.setInode, other, others]
  · rw [unfolded]
    simp [Volume.setInode, kind]

/-! Sequences of calls. -/

inductive Call
  | bmap (n : Nat) (block : Int) (create : Bool) (now : Nat) (buffer : Nat → Bool)
  | truncate (n now : Nat)

def Call.inode : Call → Nat
  | .bmap n _ _ _ _ => n
  | .truncate n _ => n

def Call.perform (d : Volume) : Call → Option Volume
  | .bmap n block create now buffer => (Minix.bmap now buffer d n block create).map (·.2)
  | .truncate n now => some (Minix.truncate now d n)

def run (calls : List Call) (d : Volume) : Option Volume := calls.foldlM Call.perform d

theorem Consistent.perform {d d' : Volume} {files : List Nat} (consistent : Consistent d files)
    {call : Call} (known : call.inode ∈ files) (done : call.perform d = some d') :
    Consistent d' files := by
  cases call with
  | bmap n block create now buffer =>
      obtain ⟨⟨zone, after⟩, mapped, rfl⟩ := Option.map_eq_some_iff.mp done
      exact (bmap_spec consistent now buffer known block create mapped).consistent
  | truncate n now =>
      obtain rfl := Option.some.inj done
      exact (truncate_spec consistent now known).1

theorem Consistent.run {files : List Nat} (calls : List Call) {d d' : Volume}
    (consistent : Consistent d files) (known : ∀ call ∈ calls, call.inode ∈ files)
    (done : run calls d = some d') : Consistent d' files := by
  induction calls generalizing d with
  | nil =>
      obtain rfl := Option.some.inj done
      exact consistent
  | cons call rest ih =>
      rw [Minix.run, List.foldlM_cons, Option.bind_eq_bind, Option.bind_eq_some_iff] at done
      obtain ⟨between, first, later⟩ := done
      exact ih (consistent.perform (known call List.mem_cons_self) first)
        (fun call inside => known call (List.mem_cons_of_mem _ inside)) later

/-- What is promised of the next call. No zone is referred to twice, and the bitmap marks what is
referred to: that is `consistent`. -/
structure ZonesSound (d : Volume) (files : List Nat) : Prop where
  consistent : Consistent d files
  newBlock : ∀ buffer, newBlock buffer d = (0, d) ∨
    Taken d (newBlock buffer d).1 (newBlock buffer d).2
  freeBlock : ∀ zone, d.inRange zone → Freed d [zone] (freeBlock d zone)
  rejected : ∀ zone, ¬ d.inRange zone → Minix.freeBlock d zone = d
  bmap : ∀ n ∈ files, ∀ block create now buffer zone d',
    bmap now buffer d n block create = some (zone, d') → Mapped files zone d'
  truncate : ∀ n ∈ files, ∀ now,
    Freed d ((d.inodes n).zones d.blocks) (truncate now d n) ∧
      ∀ zone ∈ (d.inodes n).zones d.blocks, (truncate now d n).marked zone = false

theorem zone_allocation_sound {d d' : Volume} {files : List Nat} (consistent : Consistent d files)
    (calls : List Call) (known : ∀ call ∈ calls, call.inode ∈ files) (done : run calls d = some d') :
    ZonesSound d' files := by
  have after := consistent.run calls known done
  refine ⟨after, fun buffer => newBlock_spec buffer after.mounted,
    fun zone range => freeBlock_spec after.mounted range, fun zone => freeBlock_outside,
    fun n member block create now buffer zone d'' mapped =>
      bmap_spec after now buffer member block create mapped, fun n member now => ?_⟩
  have freed := (truncate_spec after now member).2.1
  refine ⟨freed, fun zone inside => ?_⟩
  rw [Volume.marked, freed.bit_eq, freed.bits]
  have gone := List.mem_map_of_mem (f := d'.super.bit) inside
  simp [gone]

def emptyVolume : Volume where
  super := ⟨20, 10, 1, fun index => if index = 0 then some (ByteBits.set (fun _ => 0) 0) else none⟩
  inodes := fun _ => ⟨0o100644, 0, 0, 0, false, fun _ => 0⟩
  blocks := fun _ _ => 0

theorem emptyVolume_consistent : Consistent emptyVolume [1] := by
  have none : emptyVolume.zones [1] = [] := by
    rw [Volume.zones, List.flatMap_eq_nil_iff]
    exact fun n _ => zones_empty fun _ _ => rfl
  refine ⟨⟨by decide, by decide, by decide, fun index bound => ?_⟩, by decide, fun n _ => (by decide : isRegularOrDirectory 0o100644 = true), ?_, ?_,
    fun zone range => ?_⟩
  · obtain rfl : index = 0 := Nat.lt_one_iff.mp bound
    rfl
  · rw [none]
    exact List.nodup_nil
  · rw [none]
    exact fun zone inside => nomatch inside
  · have low : 10 ≤ zone := range.1
    have high : zone < 20 := range.2
    have block : (zone - 10 + 1) >>> 13 = 0 := by
      rw [Nat.shiftRight_eq_div_pow]
      omega
    have rest : (zone - 10 + 1) % 8192 ≠ 0 := by omega
    rw [none]
    have clear : ByteBits.test (fun _ => 0#8) ((zone - 10 + 1) % 8192) = false := by
      simp [ByteBits.test]
    simp [Volume.marked, Volume.bitSet, SuperBlock.mapOf, SuperBlock.bit, emptyVolume, block, rest, clear]

/-- A zone behind a table is created and all is given up again. -/
theorem emptyVolume_sound : ∃ d', run [.bmap 1 8 true 0 fun _ => true, .truncate 1 0] emptyVolume =
    some d' ∧ ZonesSound d' [1] :=
  ⟨_, rfl, zone_allocation_sound emptyVolume_consistent
    [.bmap 1 8 true 0 fun _ => true, .truncate 1 0] (by simp [Call.inode]) rfl⟩

end SymphonyPlus.Minix
