import Bootstrap.SerialUtils

/-! The record of the active patch: written by use_data_dir, read back by
extract_patch_info at the next start, in two separate call sequences. -/
namespace Bootstrap.UserDb
open CInt ByteLayout SerialUtils

def magic : Nat := 5460

structure Record where
  dataPath : Bytes
  apkPath : Bytes
  bundleId : Bytes
  allFiles : List Bytes
  patchPartitions : List FilePartitionInfo
  endOfFile : Nat
  deriving DecidableEq, Repr

namespace Record

structure Fits (r : Record) : Prop where
  dataPath : r.dataPath.length ≤ bufferSize
  apkPath : r.apkPath.length ≤ bufferSize
  bundleId : r.bundleId.length ≤ bufferSize
  fileCount : r.allFiles.length < 2 ^ 31
  files : ∀ s ∈ r.allFiles, s.length ≤ bufferSize
  partitionBytes : 40 * r.patchPartitions.length < 2 ^ 31
  partitions : ∀ p ∈ r.patchPartitions, p.Fits
  endOfFile : r.endOfFile < 2 ^ 64

instance (r : Record) : Decidable r.Fits :=
  decidable_of_iff (r.dataPath.length ≤ bufferSize ∧ r.apkPath.length ≤ bufferSize ∧ r.bundleId.length ≤ bufferSize ∧
    r.allFiles.length < 2 ^ 31 ∧ (∀ s ∈ r.allFiles, s.length ≤ bufferSize) ∧ 40 * r.patchPartitions.length < 2 ^ 31 ∧
    (∀ p ∈ r.patchPartitions, p.Fits) ∧ r.endOfFile < 2 ^ 64)
    ⟨fun ⟨a, b, c, d, e, f, g, h⟩ => ⟨a, b, c, d, e, f, g, h⟩, fun ⟨a, b, c, d, e, f, g, h⟩ => ⟨a, b, c, d, e, f, g, h⟩⟩

def IndicesValid (r : Record) : Prop := ∀ p ∈ r.patchPartitions, p.fileIndex < r.allFiles.length
instance (r : Record) : Decidable r.IndicesValid := by unfold IndicesValid; infer_instance

end Record

/- use_data_dir writes user.db.tmp in this order. -/
def serialUserDb (r : Record) : Except Stop Bytes := do
  let partitions ← serialPartitionVector r.patchPartitions
  return serialUint32 magic ++ (serialString r.dataPath ++ (serialString r.apkPath ++
    (serialString r.bundleId ++ (serialStringVector r.allFiles ++ (partitions ++ serialUint64 r.endOfFile)))))

/- The readers behind the magic, in extract_patch_info's order. -/
def unserialFields (fp : Bytes) : Except Stop (Record × Bytes) := do
  let (dataPath, fp) ← unserialString fp
  let (apkPath, fp) ← unserialString fp
  let (bundleId, fp) ← unserialString fp
  let (allFiles, fp) ← unserialStringVector fp
  let (patchPartitions, fp) ← unserialPartitionVector fp
  let (endOfFile, fp) ← unserialUint64 fp
  return (⟨dataPath, apkPath, bundleId, allFiles, patchPartitions, endOfFile⟩, fp)

/- A wrong magic makes extract_patch_info return false. -/
def unserialUserDb (fp : Bytes) : Except Stop (Record × Bytes) :=
  let (word, fp) := unserialUint32 fp
  if word ≠ magic then .error .failed else unserialFields fp

def image (r : Record) : Bytes :=
  serialUint32 magic ++ (serialString r.dataPath ++ (serialString r.apkPath ++ (serialString r.bundleId ++
    (serialStringVector r.allFiles ++ ((serialUint32 r.patchPartitions.length ++
      r.patchPartitions.flatMap FilePartitionInfo.image) ++ serialUint64 r.endOfFile)))))

theorem serialImage {r : Record} (fits : r.Fits) : serialUserDb r = .ok (image r) := by
  rw [serialUserDb, serialPartitionsSmall fits.partitionBytes]
  rfl

theorem magicRead (fp : Bytes) : unserialUserDb (serialUint32 magic ++ fp) = unserialFields fp := by
  have word := uint32Read (i := magic) (by decide) fp
  simp only [unserialUserDb, word, ne_eq, not_true_eq_false, if_false]

theorem magicSource (raw : Bytes) :
    (∃ fp, raw = serialUint32 magic ++ fp) ∨ unserialUserDb raw = .error .failed := by
  rcases uint32Source raw with ⟨word, fp, _, rfl, hr⟩ | ⟨huge, large, _, hr⟩
  · by_cases right : word = magic
    · exact .inl ⟨fp, by rw [right]⟩
    · exact .inr (by simp only [unserialUserDb, hr, if_pos right])
  · have wrong : huge ≠ magic := by unfold magic; omega
    exact .inr (by simp only [unserialUserDb, hr, if_pos wrong])

theorem imageRead {r : Record} (fits : r.Fits) (rest : Bytes) : unserialUserDb (image r ++ rest) = .ok (r, rest) := by
  have strings := stringVectorExact.roundTrip (a := r.allFiles) ⟨fits.fileCount, fits.files⟩
  have partitions := partitionsRead fits.partitionBytes fits.partitions (serialUint64 r.endOfFile ++ rest)
  rw [List.append_assoc] at partitions
  simp only [image, List.append_assoc, magicRead]
  rw [unserialFields, exceptOk (stringExact.roundTrip fits.dataPath _)]
  dsimp only
  rw [exceptOk (stringExact.roundTrip fits.apkPath _)]
  dsimp only
  rw [exceptOk (stringExact.roundTrip fits.bundleId _)]
  dsimp only
  rw [exceptOk (strings _)]
  dsimp only
  rw [exceptOk partitions]
  dsimp only
  rw [exceptOk (uint64Read fits.endOfFile rest)]
  rfl

theorem readSource {raw : Bytes} {r : Record} {rest : Bytes} (h : unserialUserDb raw = .ok (r, rest)) :
    r.Fits ∧ raw = image r ++ rest := by
  rcases magicSource raw with ⟨fp, rfl⟩ | refused
  · rw [magicRead] at h
    obtain ⟨⟨dataPath, _⟩, hd, h⟩ := exceptBind h
    obtain ⟨⟨apkPath, _⟩, ha, h⟩ := exceptBind h
    obtain ⟨⟨bundleId, _⟩, hb, h⟩ := exceptBind h
    obtain ⟨⟨allFiles, _⟩, hf, h⟩ := exceptBind h
    obtain ⟨⟨partitions, _⟩, hp, h⟩ := exceptBind h
    obtain ⟨⟨endOfFile, _⟩, he, h⟩ := exceptBind h
    cases h
    obtain ⟨fd, rfl⟩ := stringExact.wellFormed hd
    obtain ⟨fa, rfl⟩ := stringExact.wellFormed ha
    obtain ⟨fb, rfl⟩ := stringExact.wellFormed hb
    obtain ⟨⟨fc, ff⟩, rfl⟩ := stringVectorExact.wellFormed hf
    obtain ⟨fs, fp, rfl⟩ := partitionsSource hp
    obtain ⟨fe, rfl⟩ := uint64Source he
    exact ⟨⟨fd, fa, fb, fc, ff, fs, fp, fe⟩, by simp only [image, List.append_assoc]⟩
  · rw [refused] at h
    cases h

theorem imageInjective {r s : Record} (left : r.Fits) (right : s.Fits) (same : image r = image s) : r = s := by
  have a := imageRead left []
  rw [same, imageRead right []] at a
  cases a
  rfl

theorem userDbRoundTrip (r : Record) (fits : r.Fits) :
    (∃ raw, serialUserDb r = .ok raw ∧ unserialUserDb raw = .ok (r, []) ∧
      ∀ rest, unserialUserDb (raw ++ rest) = .ok (r, rest)) ∧
    ∀ s : Record, s.Fits → serialUserDb s = serialUserDb r → s = r := by
  constructor
  · refine ⟨image r, serialImage fits, ?_, imageRead fits⟩
    simpa using imageRead fits []
  · intro s other same
    rw [serialImage other, serialImage fits] at same
    exact imageInjective other fits (Except.ok.inj same)

def sampleRecord : Record :=
  ⟨[47, 112], [47, 97], [], [[47, 97], []], [⟨0, 7, 0, 3, 10⟩, ⟨7, 7, 1, 0, 0⟩], 7⟩

theorem sampleFits : sampleRecord.Fits := by decide

theorem sampleRoundTrip : ∃ raw, serialUserDb sampleRecord = .ok raw ∧
    unserialUserDb raw = .ok (sampleRecord, []) := by
  obtain ⟨⟨raw, written, read, _⟩, _⟩ := userDbRoundTrip sampleRecord sampleFits
  exact ⟨raw, written, read⟩

/-! A bad user.db. Only the magic is checked and answered with a refusal; every later defect
ends the process, and a complete record is taken whatever its file indices are. -/

def StartsSafely (raw : Bytes) : Prop :=
  match unserialUserDb raw with
  | .ok (r, _) => r.IndicesValid
  | .error stop => stop = .failed
instance (raw : Bytes) : Decidable (StartsSafely raw) := by unfold StartsSafely; split <;> infer_instance

def HasMagic (raw : Bytes) : Prop := serialUint32 magic <+: raw

theorem fieldsNeverRefuse (fp : Bytes) : unserialFields fp ≠ .error .failed := by
  refine exceptNever (stringNeverRefuses _) fun _ => exceptNever (stringNeverRefuses _) fun _ =>
    exceptNever (stringNeverRefuses _) fun _ => exceptNever ?_ fun _ =>
    exceptNever (partitionsNeverRefuse _) fun _ => exceptNever (uint64NeverRefuses _) fun _ h => by cases h
  exact exceptNever (readManyNever stringNeverRefuses _ _) fun _ => by
    dsimp only
    split <;> exact fun h => by cases h

theorem refusedExactly (raw : Bytes) : unserialUserDb raw = .error .failed ↔ ¬ HasMagic raw := by
  constructor
  · rintro h ⟨fp, rfl⟩
    rw [magicRead] at h
    exact fieldsNeverRefuse fp h
  · intro absent
    rcases magicSource raw with ⟨fp, rfl⟩ | refused
    · exact absurd ⟨fp, rfl⟩ absent
    · exact refused

/-- A start survives user.db exactly when the file lacks the magic, or begins with a record
that was written whole and whose partitions name files it lists. -/
theorem startsSafelyExactly (raw : Bytes) :
    StartsSafely raw ↔ ¬ HasMagic raw ∨ ∃ (r : Record) (written rest : Bytes),
      r.Fits ∧ r.IndicesValid ∧ serialUserDb r = .ok written ∧ raw = written ++ rest := by
  unfold StartsSafely
  constructor
  · intro safe
    cases h : unserialUserDb raw with
    | ok p =>
      simp only [h] at safe
      obtain ⟨fits, whole⟩ := readSource (show unserialUserDb raw = .ok (p.1, p.2) from h)
      exact .inr ⟨p.1, image p.1, p.2, fits, safe, serialImage fits, whole⟩
    | error stop =>
      simp only [h] at safe
      subst stop
      exact .inl ((refusedExactly raw).mp h)
  · rintro (absent | ⟨r, written, rest, fits, valid, same, rfl⟩)
    · simp only [(refusedExactly raw).mpr absent]
    · rw [serialImage fits] at same
      cases same
      simpa only [imageRead fits rest] using valid

/- A file cut off behind the magic, a string longer than the buffer, a partition of a file that is not listed. -/
def cutOff : Bytes := serialUint32 magic
def longString : Bytes := serialUint32 magic ++ (serialUint32 4097 ++ List.replicate 4097 65)
def wildIndex : Bytes := image ⟨[47], [47], [], [], [⟨0, 1, 3, 0, 1⟩], 1⟩

theorem badUserDbTakesAppDown :
    ¬ (∀ raw, StartsSafely raw) ∧ unserialUserDb cutOff = .error .exited ∧
      unserialUserDb longString = .error .faulted ∧ ¬ StartsSafely wildIndex := by
  have exits : unserialUserDb cutOff = .error .exited := by
    have h := magicRead []
    rw [List.append_nil] at h
    rw [cutOff, h, unserialFields, emptyString]
    rfl
  have overruns : unserialUserDb longString = .error .faulted := by
    have len : (List.replicate 4097 (65 : UInt8)).length = 4097 := List.length_replicate
    have stored : slice (List.replicate 4097 (65 : UInt8)) 0 4097 = List.replicate 4097 65 := by
      rw [slice, List.drop_zero, List.take_of_length_le (by rw [len])]
    have larger : bufferSize < 4097 := by decide
    rw [longString, magicRead, unserialFields, unserialString, uint32Read (by decide : 4097 < 2 ^ 32)]
    simp only [stored, len, larger, if_true]
    rfl
  refine ⟨fun all => ?_, exits, overruns, by decide +kernel⟩
  have safe := all cutOff
  simp only [StartsSafely, exits] at safe
  cases safe

end Bootstrap.UserDb
