import URoot.Cpio.FsUnix
import URoot.Cpio.RoundTrip

set_option autoImplicit false

namespace URoot.Cpio

open GoLib

-- A Linux device number: MINORBITS is 20, and the user space encoding has 12 bits
-- for the major number.
structure Device where
  major : BitVec 12
  minor : BitVec 20
deriving DecidableEq

-- What stat puts in st_rdev: minor bits 8..19, the major, minor bits 0..7.
def Device.encode (device : Device) : BitVec 32 :=
  device.minor.extractLsb' 8 12 ++ device.major ++ device.minor.extractLsb' 0 8

def decodeDev (dev : BitVec 32) : Device where
  major := dev.extractLsb' 8 12
  minor := dev.extractLsb' 20 12 ++ dev.extractLsb' 0 8

def Device.rdev (device : Device) : UInt64 := UInt64.ofNat device.encode.toNat

theorem encode_to_nat (device : Device) :
    device.encode.toNat = device.minor.toNat / 256 * 2 ^ 20 + device.major.toNat * 256 + device.minor.toNat % 256 := by
  have low := device.minor.isLt
  have high := device.major.isLt
  rw [Device.encode, BitVec.toNat_append, BitVec.toNat_append, ← Nat.shiftLeft_add_eq_or_of_lt (BitVec.isLt _),
    ← Nat.shiftLeft_add_eq_or_of_lt (BitVec.isLt _)]
  simp only [BitVec.extractLsb'_toNat, Nat.shiftLeft_eq, Nat.shiftRight_eq_div_pow]
  omega

theorem decode_encode (device : Device) : decodeDev device.encode = device := by
  have low := device.minor.isLt
  have high := device.major.isLt
  have number := encode_to_nat device
  have major : (decodeDev device.encode).major = device.major := by
    apply BitVec.eq_of_toNat_eq
    simp only [decodeDev, BitVec.extractLsb'_toNat, number, Nat.shiftRight_eq_div_pow]
    omega
  have minor : (decodeDev device.encode).minor = device.minor := by
    apply BitVec.eq_of_toNat_eq
    simp only [decodeDev]
    rw [BitVec.toNat_append, ← Nat.shiftLeft_add_eq_or_of_lt (BitVec.isLt _)]
    simp only [BitVec.extractLsb'_toNat, number, Nat.shiftLeft_eq, Nat.shiftRight_eq_div_pow]
    omega
  cases device
  simp_all [decodeDev]

def dev (r : Record) : Int64 := (r.info.rmajor <<< 8 ||| r.info.rminor).toInt64

-- mknod's dev parameter is an unsigned int.
def mknodDevice (dev : Int64) : Device := decodeDev (BitVec.ofNat 32 dev.toUInt64.toNat)

theorem rdev_to_nat (device : Device) : device.rdev.toNat = device.encode.toNat := by
  have fits := device.encode.isLt
  exact UInt64.toNat_ofNat_of_lt' (Nat.lt_trans fits (by decide))

theorem high_to_nat (number : UInt64) : (number >>> 8).toNat = number.toNat / 256 := by
  rw [UInt64.toNat_shiftRight]
  exact Nat.shiftRight_eq_div_pow _ _

theorem low_to_nat (number : UInt64) : (number &&& 0xff).toNat = number.toNat % 256 := by
  rw [UInt64.toNat_and]
  exact Nat.and_two_pow_sub_one_eq_mod _ 8

theorem halves_join (number : UInt64) : number >>> 8 <<< 8 ||| number &&& 0xff = number := by
  have bound := number.toNat_lt
  have below : number.toNat / 256 * 2 ^ 8 < 2 ^ 64 := by omega
  apply UInt64.toNat_inj.mp
  rw [UInt64.toNat_or, low_to_nat, UInt64.toNat_shiftLeft, high_to_nat]
  have shift : (number.toNat / 256) <<< ((8 : UInt64).toNat % 64) % 2 ^ 64 = (number.toNat / 256) <<< 8 := by
    rw [Nat.mod_eq_of_lt]
    · rfl
    · simpa [Nat.shiftLeft_eq] using below
  rw [shift, ← Nat.shiftLeft_add_eq_or_of_lt (Nat.mod_lt _ (by decide)), Nat.shiftLeft_eq]
  omega

theorem device_bound (device : Device) : device.rdev.toNat < 2 ^ 32 := by
  rw [rdev_to_nat]
  exact device.encode.isLt

theorem rmajor_read_back (n : Bytes) (sys : Stat) (device : Device) (rdev : sys.rdev = device.rdev) :
    (sysInfo n sys).rmajor.toUInt32.toUInt64 = device.rdev >>> 8 := by
  have bound := device_bound device
  have high := high_to_nat device.rdev
  have word : (sysInfo n sys).rmajor = device.rdev >>> 8 := by rw [← rdev, sysInfo]
  rw [word]
  exact word_survives _ (by omega)

theorem rminor_read_back (n : Bytes) (sys : Stat) (device : Device) (rdev : sys.rdev = device.rdev) :
    (sysInfo n sys).rminor.toUInt32.toUInt64 = device.rdev &&& 0xff := by
  have low := low_to_nat device.rdev
  have word : (sysInfo n sys).rminor = device.rdev &&& 0xff := by rw [← rdev, sysInfo]
  rw [word]
  exact word_survives _ (by omega)

theorem numbers_agree_iff (device : Device) :
    ((device.rdev >>> 8).toNat = device.major.toNat ∧ (device.rdev &&& 0xff).toNat = device.minor.toNat) ↔
      device.minor.toNat < 256 := by
  have low := device.minor.isLt
  have high := device.major.isLt
  rw [high_to_nat, low_to_nat, rdev_to_nat, encode_to_nat]
  omega

theorem mknod_same (device : Device) (back : Record) (rmajor : back.info.rmajor = device.rdev >>> 8)
    (rminor : back.info.rminor = device.rdev &&& 0xff) : mknodDevice (dev back) = device := by
  rw [dev, rmajor, rminor, halves_join, mknodDevice]
  have word : BitVec.ofNat 32 device.rdev.toInt64.toUInt64.toNat = device.encode := by
    rw [UInt64.toUInt64_toInt64, rdev_to_nat]
    exact BitVec.ofNat_toNat _ _ |>.trans (BitVec.setWidth_eq _)
  rw [word, decode_encode]

theorem special_record (fs : FileSystem) (path : Bytes) (sys : Stat) (m : Inodes) (found : fs.lstat path = .ok sys)
    (special : sys.fileType = .other) :
    ∃ ino next, (getRecord fs path).run m = (.ok (staticRecord [] { sysInfo path sys with dev := 0, ino := ino }), next) := by
  have numbered : ∃ ino done, (inode (sysInfo path sys) m).1 = ({ sysInfo path sys with dev := 0, ino := ino }, done) := by
    rw [inode]
    split <;> exact ⟨_, _, rfl⟩
  obtain ⟨ino, done, same⟩ := numbered
  refine ⟨ino, (inode (sysInfo path sys) m).2, ?_⟩
  rw [getRecord, Act.run_of_except_bind _ _ found,
    Act.run_modify_get_bind, same]
  simp only [special, Act.run_pure]

theorem device_numbers_kept (fs : FileSystem) (path : Bytes) (sys : Stat) (device : Device) (m : Inodes)
    (found : fs.lstat path = .ok sys) (special : sys.fileType = .other) (rdev : sys.rdev = device.rdev)
    (short : path.length + 1 < 2 ^ 32) :
    ∃ record next written back, (getRecord fs path).run m = (.ok record, next) ∧
      (Newc.writeRecord bytesBuffer record).run ⟨[], 0⟩ = (.ok (), written) ∧
      Newc.readRecord.run ⟨written.w, 0⟩ = (.ok back, ⟨written.w, written.pos⟩) ∧
      ((back.info.rmajor.toNat = device.major.toNat ∧ back.info.rminor.toNat = device.minor.toNat) ↔
        device.minor.toNat < 256) ∧
      mknodDevice (dev back) = device := by
  obtain ⟨ino, next, got⟩ := special_record fs path sys m found special
  generalize same : staticRecord [] { sysInfo path sys with dev := 0, ino := ino } = record at got
  have reads : record.Reads := by
    rw [← same]
    exact static_reads _ _
  have written := Newc.write_record_buffer record ⟨[], 0⟩ reads rfl
  have name : record.info.name = path := by rw [← same, staticRecord, sysInfo]
  have size : (Newc.recordHeader record).fileSize.toNat = record.content.length := by
    rw [← same]
    rfl
  have back := Newc.read_record_bytes [] [] record rfl (by rw [name]; exact short) size
  have major : (Newc.readBack record).info.rmajor = device.rdev >>> 8 := by
    rw [← rmajor_read_back path sys device rdev, ← same]
    rfl
  have minor : (Newc.readBack record).info.rminor = device.rdev &&& 0xff := by
    rw [← rminor_read_back path sys device rdev, ← same]
    rfl
  refine ⟨record, next, _, Newc.readBack record, got, written, ?_, ?_, mknod_same device _ major minor⟩
  · simpa [Newc.grow] using back
  · rw [major, minor]
    exact numbers_agree_iff device

def nodeStat (device : Device) : Stat := ⟨5, 9, 1, 0o060600, 0, 0, device.rdev, 0, 0⟩

def nodes (device : Device) : FileSystem where
  lstat := fun _ => .ok (nodeStat device)
  readlink := fun _ => .error (.other (str "invalid argument"))
  newDeferReadCloser := fun _ => newBytesReadCloser []
  hardLinks := by
    intro a b statA statB foundA foundB _ _
    cases foundA
    cases foundB
    exact ⟨rfl, rfl⟩

theorem sda_numbers_kept :
    ∃ record next written back, (getRecord (nodes ⟨8, 1⟩) (str "dev/sda1")).run Inodes.empty = (.ok record, next) ∧
      (Newc.writeRecord bytesBuffer record).run ⟨[], 0⟩ = (.ok (), written) ∧
      Newc.readRecord.run ⟨written.w, 0⟩ = (.ok back, ⟨written.w, written.pos⟩) ∧
      ((back.info.rmajor.toNat = (8 : BitVec 12).toNat ∧ back.info.rminor.toNat = (1 : BitVec 20).toNat) ↔
        (1 : BitVec 20).toNat < 256) ∧
      mknodDevice (dev back) = ⟨8, 1⟩ :=
  device_numbers_kept (nodes ⟨8, 1⟩) (str "dev/sda1") (nodeStat ⟨8, 1⟩) ⟨8, 1⟩ Inodes.empty rfl (by decide) rfl (by decide)

theorem large_minor_moved :
    (match (getRecord (nodes ⟨259, 256⟩) (str "dev/nvme")).run Inodes.empty with
      | (.ok record, _) =>
          match (Newc.writeRecord bytesBuffer record).run ⟨[], 0⟩ with
          | (.ok (), written) =>
              match Newc.readRecord.run ⟨written.w, 0⟩ with
              | (.ok back, _) => some (back.info.rmajor, back.info.rminor)
              | _ => none
          | _ => none
      | _ => none) = some (4355, 0) := by
  decide +kernel

end URoot.Cpio
