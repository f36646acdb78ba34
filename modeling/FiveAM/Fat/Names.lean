/- GID: FiveAM/Fat/Names
   source: kernel/src/fat.rs
   digest: The 32 bytes of a directory entry, and which names they give back. -/

import FiveAM.Fat.Directory

set_option autoImplicit false
set_option relaxedAutoImplicit false

namespace FiveAM.Fat.Names

open FiveAM.Lib.ByteRegions FiveAM.Fat.Reading FiveAM.Fat.Writing FiveAM.Fat.Layout

/-- Up to `n` bytes in upper case, then spaces. -/
def padded (n : Nat) (part : List Char) : List UInt8 :=
  (bytes part).map toAsciiUppercase ++ List.replicate (n - (bytes part).length) space

/-- The stem and the extension fit their fields. -/
def Short (name : List Char) : Prop :=
  (bytes (split name).1).length ≤ 8 ∧ (bytes (split name).2).length ≤ 3

instance (name : List Char) : Decidable (Short name) := inferInstanceAs (Decidable (_ ∧ _))

/-- What `create` asks of a name. -/
def Fits (name : List Char) : Prop := (split name).1 ≠ [] ∧ Short name

instance (name : List Char) : Decidable (Fits name) := inferInstanceAs (Decidable (_ ∧ _))

/-- The name that will be read back from the slot that is written for `name`. -/
def stored (name : List Char) : List Char :=
  decodeName (directoryEntry (split name).1 (split name).2 0 0)

private theorem splice_left {xs ys bs : List UInt8} {i : Nat} (inside : i + bs.length ≤ xs.length) :
    splice (xs ++ ys) i bs = splice xs i bs ++ ys := by
  unfold splice
  rw [List.take_append_of_le_length (by omega), List.drop_append_of_le_length inside]
  simp

private theorem splice_right (xs ys bs : List UInt8) (i : Nat) :
    splice (xs ++ ys) (xs.length + i) bs = xs ++ splice ys i bs := by
  unfold splice
  rw [List.take_length_add_append, Nat.add_assoc, List.drop_length_add_append]
  simp

private theorem splice_whole {xs bs : List UInt8} (same : bs.length = xs.length) :
    splice xs 0 bs = bs := by
  unfold splice
  rw [List.take_zero, List.nil_append, Nat.zero_add, same, List.drop_length, List.append_nil]

theorem padded_length {n : Nat} {part : List Char} (short : (bytes part).length ≤ n) :
    (padded n part).length = n := by
  simp only [padded, List.length_append, List.length_map, List.length_replicate]
  omega

private theorem splice_padded (n : Nat) (part : List Char) :
    splice (List.replicate n space) 0 ((bytes part).map toAsciiUppercase) = padded n part := by
  unfold splice padded
  rw [List.take_zero, List.nil_append, Nat.zero_add, List.drop_replicate, List.length_map]

theorem directoryEntry_eq {stem extension : List Char} (short : (bytes stem).length ≤ 8)
    (shorter : (bytes extension).length ≤ 3) (firstCluster size : Nat) :
    directoryEntry stem extension firstCluster size =
      padded 8 stem ++ (padded 3 extension ++ ([0x20] ++ (List.replicate 14 0 ++
        (le16 firstCluster ++ le32 size)))) := by
  have start : List.replicate directoryEntrySize (0 : UInt8) =
      List.replicate 11 0 ++ ([0] ++ (List.replicate 14 0 ++
        (List.replicate 2 0 ++ List.replicate 4 0))) := by decide
  have blank : List.replicate 11 space = List.replicate 8 space ++ List.replicate 3 space := by
    decide
  have eight := padded_length (n := 8) short
  have three := padded_length (n := 3) shorter
  have named (rest : List UInt8) : splice (splice (List.replicate 11 space ++ rest) 0
      ((bytes stem).map toAsciiUppercase)) 8 ((bytes extension).map toAsciiUppercase) =
      padded 8 stem ++ (padded 3 extension ++ rest) := by
    rw [blank, List.append_assoc, splice_left (by simpa using short), splice_padded]
    have after := splice_right (padded 8 stem) (List.replicate 3 space ++ rest)
      ((bytes extension).map toAsciiUppercase) 0
    rw [eight] at after
    rw [after, splice_left (by simpa using shorter), splice_padded]
  have head : (padded 8 stem ++ padded 3 extension).length = 11 := by
    rw [List.length_append, eight, three]
  have attributes (rest : List UInt8) :
      splice ((padded 8 stem ++ padded 3 extension) ++ ([0] ++ rest)) 11 [0x20] =
        (padded 8 stem ++ padded 3 extension) ++ ([0x20] ++ rest) := by
    have after := splice_right (padded 8 stem ++ padded 3 extension) ([0] ++ rest) [0x20] 0
    rw [head] at after
    rw [after]
    rfl
  have long : (((padded 8 stem ++ padded 3 extension) ++ [0x20]) ++
      List.replicate 14 (0 : UInt8)).length = 26 := by
    rw [List.length_append, List.length_append, head, List.length_replicate, List.length_singleton]
  have clusters (rest : List UInt8) :
      splice ((((padded 8 stem ++ padded 3 extension) ++ [0x20]) ++ List.replicate 14 0) ++
          (List.replicate 2 0 ++ rest)) 26 (le16 firstCluster) =
        (((padded 8 stem ++ padded 3 extension) ++ [0x20]) ++ List.replicate 14 0) ++
          (le16 firstCluster ++ rest) := by
    have after := splice_right (((padded 8 stem ++ padded 3 extension) ++ [0x20]) ++
      List.replicate 14 0) (List.replicate 2 0 ++ rest) (le16 firstCluster) 0
    rw [long] at after
    rw [after, splice_left (by simp [le16]), splice_whole (by simp [le16])]
  have sizes :
      splice ((((padded 8 stem ++ padded 3 extension) ++ [0x20]) ++ List.replicate 14 0) ++
          (le16 firstCluster ++ List.replicate 4 0)) 28 (le32 size) =
        (((padded 8 stem ++ padded 3 extension) ++ [0x20]) ++ List.replicate 14 0) ++
          (le16 firstCluster ++ le32 size) := by
    have after := splice_right ((((padded 8 stem ++ padded 3 extension) ++ [0x20]) ++
      List.replicate 14 0) ++ le16 firstCluster) (List.replicate 4 0) (le32 size) 0
    rw [List.length_append, long] at after
    rw [← List.append_assoc, ← List.append_assoc _ _ (le32 size)]
    rw [splice_whole (by simp [le32])] at after
    exact after
  have unused (rest : List UInt8) : splice (List.replicate 11 0 ++ rest) 0
      (List.replicate 11 space) = List.replicate 11 space ++ rest := by
    rw [splice_left (by simp), splice_whole (by simp)]
  unfold directoryEntry
  simp only
  rw [start, unused, named, ← List.append_assoc, attributes, ← List.append_assoc,
    ← List.append_assoc, clusters, sizes]
  simp only [List.append_assoc]

theorem rsplitOnce_some {c : Char} {name before after : List Char}
    (parts : rsplitOnce c name = some (before, after)) : name = before ++ c :: after := by
  induction name generalizing before with
  | nil => simp [rsplitOnce] at parts
  | cons x rest ih =>
      rw [rsplitOnce] at parts
      cases inner : rsplitOnce c rest with
      | some pair =>
          obtain ⟨b, a⟩ := pair
          rw [inner] at parts
          simp only [Option.some.injEq, Prod.mk.injEq] at parts
          obtain ⟨rfl, rfl⟩ := parts
          rw [ih inner]
          rfl
      | none =>
          rw [inner] at parts
          simp only at parts
          by_cases same : x = c
          · rw [if_pos same] at parts
            simp only [Option.some.injEq, Prod.mk.injEq] at parts
            obtain ⟨rfl, rfl⟩ := parts
            rw [same]
            rfl
          · rw [if_neg same] at parts
            simp at parts

theorem split_prefix (name : List Char) : ∃ rest, name = (split name).1 ++ rest := by
  unfold split
  cases parts : rsplitOnce '.' name with
  | none => exact ⟨[], by simp⟩
  | some pair => exact ⟨'.' :: pair.2, rsplitOnce_some parts⟩

private theorem decodeName_append {xs ys : List UInt8} (eleven : xs.length = 11) :
    decodeName (xs ++ ys) = decodeName xs := by
  unfold decodeName
  rw [List.take_append_of_le_length (by omega), List.drop_append_of_le_length (by omega),
    List.take_append_of_le_length (by rw [List.length_drop]; omega)]

theorem decodeName_entry {name : List Char} (fits : Short name) (firstCluster size : Nat) :
    decodeName (directoryEntry (split name).1 (split name).2 firstCluster size) = stored name := by
  obtain ⟨short, shorter⟩ := fits
  have eleven : (padded 8 (split name).1 ++ padded 3 (split name).2).length = 11 := by
    rw [List.length_append, padded_length short, padded_length shorter]
  have named (rest : List UInt8) :
      decodeName (padded 8 (split name).1 ++ (padded 3 (split name).2 ++ rest)) =
        decodeName (padded 8 (split name).1 ++ padded 3 (split name).2) := by
    rw [← List.append_assoc, decodeName_append eleven]
  unfold stored
  rw [directoryEntry_eq short shorter, directoryEntry_eq short shorter, named, named]

theorem directoryEntry_length {name : List Char} (fits : Short name) (firstCluster size : Nat) :
    (directoryEntry (split name).1 (split name).2 firstCluster size).length =
      directoryEntrySize := by
  obtain ⟨short, shorter⟩ := fits
  rw [directoryEntry_eq short shorter]
  simp [padded_length short, padded_length shorter, le16, le32, directoryEntrySize]

private theorem getD_append (xs ys : List UInt8) (i : Nat) (other : UInt8) :
    (xs ++ ys).getD (xs.length + i) other = ys.getD i other := by
  rw [List.getD_append_right _ _ _ _ (Nat.le_add_right _ _), Nat.add_sub_cancel_left]

private theorem readU16_append (xs ys : List UInt8) (i : Nat) :
    readU16 (xs ++ ys) (xs.length + i) = readU16 ys i := by
  simp only [readU16, Nat.add_assoc, getD_append]

private theorem readU32_append (xs ys : List UInt8) (i : Nat) :
    readU32 (xs ++ ys) (xs.length + i) = readU32 ys i := by
  simp only [readU32, Nat.add_assoc, getD_append]

theorem le32_value {value : Nat} (small : value < 2 ^ 32) : readU32 (le32 value) 0 = value := by
  simp [readU32, le32]
  omega

def firstByte (name : List Char) : UInt8 := (padded 8 (split name).1).headD 0

theorem bytes_ne_nil {name : List Char} (some : name ≠ []) : bytes name ≠ [] := by
  cases name with
  | nil => exact absurd rfl some
  | cons c rest =>
      have := String.utf8EncodeChar_ne_nil (c := c)
      simp [bytes, this]

theorem written_slot {name : List Char} (fits : Short name) {firstCluster size : Nat}
    (clusters : firstCluster < 2 ^ 16) (sizes : size < 2 ^ 32) {slot : Slot}
    (written : slot.bytes = directoryEntry (split name).1 (split name).2 firstCluster size) :
    slot.first = firstByte name ∧ slot.attributes = 0x20 ∧
      slot.entry = { name := stored name, size := size, firstCluster := firstCluster } := by
  have named := decodeName_entry fits firstCluster size
  obtain ⟨short, shorter⟩ := fits
  have shape := directoryEntry_eq short shorter firstCluster size
  have eight := padded_length short
  have three := padded_length shorter
  refine ⟨?_, ?_, ?_⟩
  · have some : padded 8 (split name).1 ≠ [] := fun none => by simp [none] at eight
    obtain ⟨b, rest, head⟩ := List.exists_cons_of_ne_nil some
    rw [Slot.first, written, shape, firstByte, head]
    rfl
  · have place := getD_append (padded 8 (split name).1 ++ padded 3 (split name).2)
      ([0x20] ++ (List.replicate 14 0 ++ (le16 firstCluster ++ le32 size))) 0 0
    rw [List.length_append, eight, three] at place
    rw [Slot.attributes, written, shape, ← List.append_assoc]
    exact place
  · have long : (((padded 8 (split name).1 ++ padded 3 (split name).2) ++ [0x20]) ++
        List.replicate 14 (0 : UInt8)).length = 26 := by
      rw [List.length_append, List.length_append, List.length_append, eight, three,
        List.length_replicate, List.length_singleton]
    have first := readU16_append (((padded 8 (split name).1 ++ padded 3 (split name).2) ++
      [0x20]) ++ List.replicate 14 0) (le16 firstCluster ++ le32 size) 0
    rw [long, le16_value clusters] at first
    have whole := readU32_append ((((padded 8 (split name).1 ++ padded 3 (split name).2) ++
      [0x20]) ++ List.replicate 14 0) ++ le16 firstCluster) (le32 size) 0
    rw [List.length_append, long, le32_value sizes] at whole
    rw [Slot.entry, written, named]
    rw [shape, ← List.append_assoc, ← List.append_assoc, ← List.append_assoc, first,
      ← List.append_assoc _ (le16 firstCluster)]
    exact congrArg (fun n => Entry.mk (stored name) n firstCluster) whole

/-- The slot written for a name decodes to the name, but for case. -/
def Survives (name : List Char) : Prop := eqIgnoreAsciiCase (stored name) name = true

instance (name : List Char) : Decidable (Survives name) := inferInstanceAs (Decidable (_ = _))

theorem survives_iff {name : List Char} :
    Survives name ↔ eqIgnoreAsciiCase (stored name) name = true := Iff.rfl

private theorem uppercase_deleted {b : UInt8} (upper : toAsciiUppercase b = entryDeleted) :
    b = entryDeleted := by
  unfold toAsciiUppercase at upper
  split_ifs at upper with letter
  · obtain ⟨low, high⟩ := letter
    rw [UInt8.le_iff_toNat_le] at low high
    have sub := congrArg UInt8.toNat upper
    rw [UInt8.toNat_sub_of_le _ _ (by rw [UInt8.le_iff_toNat_le]; exact Nat.le_trans (by decide) low)]
      at sub
    have value : entryDeleted.toNat = 229 := rfl
    have first : (0x61 : UInt8).toNat = 97 := rfl
    have last : (0x7A : UInt8).toNat = 122 := rfl
    have case : (0x20 : UInt8).toNat = 32 := rfl
    omega
  · exact upper

private theorem uppercase_free {b : UInt8} : toAsciiUppercase b = entryFree ↔ b = entryFree := by
  unfold toAsciiUppercase
  split_ifs with letter
  · obtain ⟨low, high⟩ := letter
    rw [UInt8.le_iff_toNat_le] at low high
    have first : (0x61 : UInt8).toNat = 97 := rfl
    have case : (0x20 : UInt8).toNat = 32 := rfl
    have free : entryFree.toNat = 0 := rfl
    have sub := UInt8.toNat_sub_of_le b 0x20 (by rw [UInt8.le_iff_toNat_le]; omega)
    rw [← UInt8.toNat_inj, ← UInt8.toNat_inj]
    omega
  · rfl

theorem firstByte_cons {name : List Char} (some : (split name).1 ≠ []) :
    ∃ b rest, bytes name = b :: rest ∧ firstByte name = toAsciiUppercase b := by
  obtain ⟨b, rest, head⟩ := List.exists_cons_of_ne_nil (bytes_ne_nil some)
  obtain ⟨later, whole⟩ := split_prefix name
  refine ⟨b, rest ++ bytes later, ?_, ?_⟩
  · conv => lhs; rw [whole, bytes, List.flatMap_append]
    rw [← bytes, head]
    rfl
  · rw [firstByte, padded, head]
    rfl

theorem firstByte_free {name : List Char} (fits : Fits name) :
    firstByte name = entryFree ↔ (bytes name).head? = some 0 := by
  obtain ⟨b, rest, front, first⟩ := firstByte_cons fits.1
  rw [first, front, uppercase_free, List.head?_cons, Option.some.injEq]
  rfl

theorem firstByte_of_survives {name : List Char} (fits : Short name) (survives : Survives name) :
    firstByte name ≠ entryDeleted := by
  intro deleted
  by_cases some : (split name).1 = []
  · rw [firstByte, some] at deleted
    exact absurd deleted (by decide)
  obtain ⟨short, shorter⟩ := fits
  obtain ⟨b, rest, front, first⟩ := firstByte_cons some
  have mark : b = entryDeleted := uppercase_deleted (first.symm.trans deleted)
  obtain ⟨more, decoded⟩ : ∃ more, stored name = Char.ofUInt8 0xE5 :: more := by
    have eight := padded_length short
    obtain ⟨x, others, head⟩ := List.exists_cons_of_ne_nil
      (show padded 8 (split name).1 ≠ [] from fun none => by simp [none] at eight)
    have padding : padded 8 (split name).1 = entryDeleted :: others := by
      rw [firstByte, head, List.headD_cons] at deleted
      rw [head, deleted]
    rw [stored, directoryEntry_eq short shorter, decodeName, List.take_left' eight, padding,
      List.filter_cons_of_pos (by decide), List.map_cons]
    split_ifs
    · exact ⟨_, rfl⟩
    · exact ⟨_, rfl⟩
  have same := of_decide_eq_true survives
  rw [decoded, front, mark] at same
  have split : bytes (Char.ofUInt8 0xE5 :: more) = 0xC3 :: 0xA5 :: bytes more := rfl
  rw [split, List.map_cons, List.map_cons] at same
  exact absurd (List.cons.inj same).1 (by decide)

end FiveAM.Fat.Names
