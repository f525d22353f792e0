import Bootstrap.ShortReads
import Bootstrap.RecordLookup

/-! The hooks of fread and read in front of a ShadowZip, against what libc promises of the calls. -/
namespace Bootstrap.FileMapping
open CInt ByteLayout SerialUtils
open ShadowStream (ShadowZip Serves Cached Delivers Openable partitionAt partitionIn partitionNone freadRuns readPast
  readNothing readWrapped readLoop)
open PlainFile (Memory store)

section
variable {p : Process} {w : World}

def Shadowed (p : Process) (w : World) (fd : Int) (z : ShadowZip) : Prop :=
  ∃ zip w', getCachedShadowzip p w fd = .ok (zip, w') ∧ zip ≠ NULL ∧ w'.zips zip = some z

theorem cachedFrame {fd : Int} {zip : Nat} {w' : World} (cached : getCachedShadowzip p w fd = .ok (zip, w')) :
    w' = w ∧ ∀ zips, getCachedShadowzip p { w with zips } fd = .ok (zip, { w with zips }) := by
  simp only [getCachedShadowzip, getMappingFound] at cached ⊢
  by_cases absent : found p w.toKernel fd = NULL
  · rw [if_pos absent] at cached
    obtain ⟨rfl, rfl⟩ := Prod.mk.inj (Except.ok.inj cached)
    exact ⟨rfl, fun zips => by rw [if_pos absent]; rfl⟩
  · rw [if_neg absent] at cached
    unfold deref at cached ⊢
    cases here : w.records (found p w.toKernel fd) with
    | none =>
      rw [here] at cached
      cases cached
    | some r =>
      rw [here] at cached
      obtain ⟨rfl, rfl⟩ := Prod.mk.inj (Except.ok.inj cached)
      exact ⟨rfl, fun zips => by rw [if_neg absent]; rfl⟩

theorem hookedShadow {α : Type} {fd : Int} {z : ShadowZip} (shadowed : Shadowed p w fd z)
    (member : ShadowZip → Except Stop (α × ShadowZip)) (libc : World → α × World) : ∃ next : ShadowZip → World,
      hooked p w fd member libc = (inZip (member z)).map (fun r => (r.1, next r.2)) ∧
      ∀ z', Shadowed p (next z') fd z' ∧ (next z').streams = w.streams := by
  obtain ⟨zip, w', cached, some_, live⟩ := shadowed
  obtain ⟨rfl, again⟩ := cachedFrame cached
  have known : deref w'.zips zip = .ok z := by rw [deref, live]
  refine ⟨fun z => { w' with zips := Function.update w'.zips zip (some z) }, ?_, fun z' =>
    ⟨⟨zip, _, again _, some_, Function.update_self _ _ _⟩, rfl⟩⟩
  rw [hooked, exceptOk cached]
  dsimp only
  rw [if_neg some_, exceptOk known]
  cases member z <;> rfl

end

section
variable {files : ShadowStream.Files} {data : Bootstrap.ShadowZip.ShadowZipGlobalData} {z : ShadowZip} {pos : Nat}

def reported (length pos q : Nat) : Nat :=
  if length ≤ pos then 0 else if 2 ^ 64 ≤ pos + q then q else min q (length - pos)

theorem freadReports (serves : Serves files data) (cached : Cached data z) (cursor : z.pos = pos) (below : pos < 2 ^ 63)
    (size : Nat) {nmemb : Nat} (count : 0 < i32 nmemb) (s : Memory) : ∃ s' z', ShadowStream.fread files s size nmemb z =
      .ok (reported data.endOfFile pos (u64 (size * nmemb : Nat)), s', z') := by
  have runs := freadRuns files cached cursor below size count s
  have request := u64Bound (size * nmemb : Nat)
  have small := serves.small
  generalize u64 (size * nmemb : Nat) = q at runs request ⊢
  rw [runs, reported]
  cases found : partitionAt data pos with
  | none =>
    rw [readPast (r := ⟨z, pos, 0, 0, s⟩) found, if_pos (partitionNone serves.tabled found)]
    exact ⟨s, z, rfl⟩
  | some info =>
    obtain ⟨mem, low, high⟩ := partitionIn serves.tabled found
    have inside := Tiling.tilesAround serves.tiles (List.mem_map_of_mem (f := Bootstrap.ShadowZip.piece) mem)
    have opens : Openable files data z info.fileIndex := .inr (serves.served info mem).opens
    simp only [Bootstrap.ShadowZip.piece] at inside
    rw [if_neg (by omega)]
    by_cases wrapped : 2 ^ 64 ≤ pos + q
    · have stop : u64 (pos + q : Nat) = pos + q - 2 ^ 64 := by unfold u64; omega
      obtain ⟨r, read, total⟩ := (readWrapped serves.tabled cached cursor found s files request wrapped).1 opens
      rw [stop, read, if_pos wrapped]
      exact ⟨r.memory, r.zip, by rw [← total]; rfl⟩
    · have stop : u64 (pos + q : Nat) = pos + q := u64Exact (by omega)
      obtain ⟨z', bytes, read, _, length, _⟩ := readLoop serves.tiles serves.tabled.listed ⟨z, pos, 0, 0, s⟩
        (fun other known _ => (serves.served other known).delivers
          (Tiling.tilesEven serves.tiles _ (List.mem_map_of_mem known)) _) cached cursor (Nat.zero_le _)
        (Nat.le_add_right pos q) (by omega) small (by dsimp only; omega) rfl
      have amount : min (pos + q) data.endOfFile - pos = min q (data.endOfFile - pos) := by omega
      rw [stop, read, if_neg wrapped, ← amount]
      exact ⟨_, z', by simp only [Nat.zero_add]; rfl⟩

end

/-- Bytes count as elements only where an element is a byte, or where the product of an absurd
request happens to wrap to the right number. -/
theorem bytesAsElements (rest : Nat) {size nmemb : Nat} (some_ : 0 < rest) (small : rest < 2 ^ 63) (sized : 1 ≤ size)
    (asked : 1 ≤ nmemb) (word : nmemb < 2 ^ 64) : min (u64 (size * nmemb : Nat)) rest = min nmemb (rest / size) ↔
      size = 1 ∨ (2 ^ 64 ≤ size * nmemb ∧ u64 (size * nmemb : Nat) = rest / size) := by
  rcases Nat.eq_or_lt_of_le sized with rfl | more
  · rw [Nat.one_mul, Nat.div_one, u64Exact word]
    simp
  have fewer : rest / size < rest := Nat.div_lt_self some_ more
  have whole : size * (rest / size) ≤ rest := Nat.mul_div_le rest size
  by_cases wrapped : 2 ^ 64 ≤ size * nmemb
  · have less : rest / size < nmemb := by
      by_contra bad
      have := Nat.mul_le_mul_left size (Nat.le_of_not_lt bad)
      omega
    omega
  · have product : u64 (size * nmemb : Nat) = size * nmemb := u64Exact (by omega)
    have double : 2 * nmemb ≤ size * nmemb := Nat.mul_le_mul_right nmemb more
    rw [product]
    omega

def ElementsCounted (length pos size nmemb : Nat) : Prop :=
  length ≤ pos ∨ nmemb = 0 ∨ (i32 nmemb ≤ 0 ∧ length - pos < size) ∨
    (0 < i32 nmemb ∧ size = 1 ∧ pos + nmemb < 2 ^ 64) ∨
    (0 < i32 nmemb ∧ 2 ^ 64 ≤ size * nmemb ∧ u64 (size * nmemb : Nat) = (length - pos) / size)

theorem reportedElements {length pos size nmemb : Nat} (small : length < 2 ^ 63) (sized : 1 ≤ size)
    (word : nmemb < 2 ^ 64) (count : 0 < i32 nmemb) :
    reported length pos (u64 (size * nmemb : Nat)) = min nmemb ((length - pos) / size) ↔
      ElementsCounted length pos size nmemb := by
  have asked : 1 ≤ nmemb := by
    rcases Nat.eq_zero_or_pos nmemb with rfl | some_
    · cases count
    · exact some_
  have signed : ¬ i32 nmemb ≤ 0 := by omega
  rw [reported, ElementsCounted]
  by_cases past : length ≤ pos
  · rw [if_pos past, Nat.sub_eq_zero_of_le past]
    simp [past]
  have exact_ := bytesAsElements (length - pos) (by omega) (by omega) sized asked word
  have less := Nat.div_le_self (length - pos) size
  rw [if_neg past]
  by_cases wrapped : 2 ^ 64 ≤ pos + u64 (size * nmemb : Nat)
  · rw [if_pos wrapped]
    constructor
    · intro same
      omega
    · rintro (bad | bad | ⟨bad, _⟩ | ⟨_, rfl, fits⟩ | ⟨_, _, same⟩)
      · exact absurd bad past
      · omega
      · exact absurd bad signed
      · rw [Nat.one_mul, u64Exact word] at wrapped
        omega
      · omega
  · rw [if_neg wrapped, exact_]
    constructor
    · rintro (rfl | wraps)
      · rw [Nat.one_mul, u64Exact word] at wrapped
        exact .inr (.inr (.inr (.inl ⟨count, rfl, by omega⟩)))
      · exact .inr (.inr (.inr (.inr ⟨count, wraps⟩)))
    · rintro (bad | bad | ⟨bad, _⟩ | ⟨_, one, _⟩ | ⟨_, wraps⟩)
      · exact absurd bad past
      · omega
      · exact absurd bad signed
      · exact .inl one
      · exact .inr wraps

section
variable (p : Process) (w : World)

def FreadContract (stream pos size nmemb : Nat) (ptr : Memory) (libc : Stdio (Nat × Memory)) : Prop :=
  ∃ ptr' w', myFread p w ptr size nmemb stream libc =
    .ok ((min nmemb ((p.data.endOfFile - pos) / size), ptr'), w')

def ReadContract (fd : Int) (pos : Nat) (buf : Memory) (nbyte : Nat) : Prop :=
  ∃ ret buf' w', myRead p w fd buf nbyte = .ok ((ret, buf'), w') ∧ (ret = 0 → p.data.endOfFile ≤ pos)

end

section
variable {p : Process} {w : World} {z : ShadowZip} {pos : Nat} {fd : Int} (serves : Serves p.files p.data)
  (cached : Cached p.data z) (cursor : z.pos = pos) (below : pos < 2 ^ 63) (shadowed : Shadowed p w fd z)
include serves cached cursor below shadowed

theorem freadContract {stream : Nat} (live : w.streams stream = some fd) {size nmemb : Nat} (sized : 1 ≤ size)
    (word : nmemb < 2 ^ 64) (ptr : Memory) (libc : Stdio (Nat × Memory)) :
    FreadContract p w stream pos size nmemb ptr libc ↔ ElementsCounted p.data.endOfFile pos size nmemb := by
  have known : deref w.streams stream = .ok fd := by rw [deref, live]
  have answers : ∀ {n ptr' z'}, ShadowStream.fread p.files ptr size nmemb z = .ok (n, ptr', z') →
      (FreadContract p w stream pos size nmemb ptr libc ↔ n = min nmemb ((p.data.endOfFile - pos) / size)) := by
    intro n ptr' z' ok
    rw [FreadContract, myFread, hookedStream, exceptOk known]
    obtain ⟨next, ran, _⟩ := hookedShadow shadowed _ (stdio fd libc)
    rw [ran, exceptOk ok]
    constructor
    · rintro ⟨_, _, same⟩
      cases same
      rfl
    · rintro rfl
      exact ⟨ptr', next z', rfl⟩
  by_cases count : i32 nmemb ≤ 0
  · have none_ : ShadowStream.fread p.files ptr size nmemb z = .ok (0, ptr, z) := by
      rw [ShadowStream.fread, if_pos count]
    rw [answers none_, ElementsCounted]
    have div : (p.data.endOfFile - pos) / size = 0 ↔ p.data.endOfFile - pos < size := by
      rw [Nat.div_eq_zero_iff]
      omega
    generalize (p.data.endOfFile - pos) / size = elements at div ⊢
    omega
  · obtain ⟨ptr', z', ok⟩ := freadReports serves cached cursor below size (show 0 < i32 nmemb by omega) ptr
    rw [answers ok, reportedElements serves.small sized word (by omega)]

theorem readContract {nbyte : Nat} (some_ : 0 < nbyte) (word : nbyte < 2 ^ 64) (buf : Memory) :
    ReadContract p w fd pos buf nbyte ↔ 0 < i32 nbyte ∨ p.data.endOfFile ≤ pos := by
  have small := serves.small
  have answers : ∀ {n buf' z'}, ShadowStream.fread p.files buf 1 nbyte z = .ok (n, buf', z') →
      (ReadContract p w fd pos buf nbyte ↔ (i64 n = 0 → p.data.endOfFile ≤ pos)) := by
    intro n buf' z' ok
    rw [ReadContract, myRead]
    obtain ⟨next, ran, _⟩ := hookedShadow shadowed _ (rawRead fd buf nbyte)
    rw [ran, exceptOk ok]
    constructor
    · rintro ⟨_, _, _, same, only⟩
      rw [(Prod.mk.inj (Prod.mk.inj (Except.ok.inj same)).1).1]
      exact only
    · exact fun only => ⟨_, _, _, rfl, only⟩
  by_cases count : i32 nbyte ≤ 0
  · have none_ : ShadowStream.fread p.files buf 1 nbyte z = .ok (0, buf, z) := by
      rw [ShadowStream.fread, if_pos count]
    rw [answers none_]
    have zero : i64 ((0 : Nat) : Int) = 0 := by decide
    simp only [zero, true_implies]
    omega
  · obtain ⟨buf', z', ok⟩ := freadReports serves cached cursor below 1 (show 0 < i32 nbyte by omega) buf
    rw [Nat.one_mul, u64Exact word] at ok
    rw [answers ok]
    refine ⟨fun _ => .inl (by omega), fun _ zero => ?_⟩
    unfold reported i64 at zero
    by_contra ahead
    rw [if_neg ahead] at zero
    split at zero <;> omega

theorem readHooksExact :
    (∀ {stream size nmemb : Nat}, w.streams stream = some fd → 1 ≤ size → nmemb < 2 ^ 64 → ∀ ptr libc,
      FreadContract p w stream pos size nmemb ptr libc ↔ ElementsCounted p.data.endOfFile pos size nmemb) ∧
    (∀ {nbyte : Nat}, 0 < nbyte → nbyte < 2 ^ 64 → ∀ buf,
      ReadContract p w fd pos buf nbyte ↔ 0 < i32 nbyte ∨ p.data.endOfFile ≤ pos) :=
  ⟨fun live sized word => freadContract serves cached cursor below shadowed live sized word,
    fun some_ word => readContract serves cached cursor below shadowed some_ word⟩

end

/- A descriptor with its record in shared memory. -/
def regionRecord : FileExtraData := ⟨MY_MAGIC_NUM, 0x7f12345678, 0x2000, 0x1000, 0, 3⟩

def regionProcess : Process :=
  ⟨true, [], ⟨0, 7⟩, ⟨1, 1⟩, fun node => ⟨0, node⟩, ShadowStream.sampleFiles, ShadowStream.sampleTable⟩

def regionWorld : World where
  fds := fun fd => if fd = 3 then some ⟨7, 0, true⟩ else none
  contents := fun node => if node = 7 then regionRecord.image else []
  names := fun _ => none
  streams := fun stream => if stream = 0x1000 then some 3 else none
  records := fun record => if record = regionRecord.self then some regionRecord else none
  zips := fun zip => if zip = 0x2000 then some (ShadowStream.sampleOpened 0) else none
  notes := []

theorem regionShadowed : Shadowed regionProcess regionWorld 3 (ShadowStream.sampleOpened 0) := by
  have mapping : getMapping regionProcess regionWorld 3 = (regionRecord.self, regionWorld) := by
    have mapped : getMemMapping regionProcess regionWorld.toKernel 3 = regionRecord.self := by decide +kernel
    rw [← mapped]
    rfl
  refine ⟨0x2000, regionWorld, ?_, by decide, rfl⟩
  simp only [getCachedShadowzip, mapping]
  rfl

theorem sampleReads : FreadContract regionProcess regionWorld 0x1000 0 1 9 (fun _ => 0) ⟨(0, fun _ => 0), 0⟩ ∧
    ReadContract regionProcess regionWorld 3 0 (fun _ => 0) 3 := by
  have start : (ShadowStream.sampleOpened 0).pos = (0 : Nat) := rfl
  have exact_ := readHooksExact (p := regionProcess) ShadowStream.sampleServes (ShadowStream.sampleCached 0) start
    (by decide) regionShadowed
  exact ⟨(exact_.1 rfl (by decide) (by decide) _ _).mpr (.inr (.inr (.inr (.inl (by decide))))),
    (exact_.2 (by decide) (by decide) _).mpr (.inl (by decide))⟩

/- Nine elements of four bytes, of which one is there; and 2^31 bytes. -/
theorem countedInBytes : Serves regionProcess.files regionProcess.data ∧
    ¬ FreadContract regionProcess regionWorld 0x1000 0 4 9 (fun _ => 0) ⟨(0, fun _ => 0), 0⟩ ∧
    ¬ ReadContract regionProcess regionWorld 3 0 (fun _ => 0) (2 ^ 31) := by
  refine ⟨ShadowStream.sampleServes, ?_, ?_⟩
  · rintro ⟨ptr, w, ran⟩
    have count : (myFread regionProcess regionWorld (fun _ => 0) 4 9 0x1000 ⟨(0, fun _ => 0), 0⟩).map (fun r => r.1.1) =
      .ok 5 := by decide +kernel
    rw [ran] at count
    have bad : min 9 ((regionProcess.data.endOfFile - 0) / 4) = 5 := Except.ok.inj count
    exact absurd bad (by decide)
  · rintro ⟨ret, buf, w, ran, only⟩
    have count : (myRead regionProcess regionWorld 3 (fun _ => 0) (2 ^ 31)).map (fun r => r.1.1) = .ok 0 := by
      decide +kernel
    rw [ran] at count
    exact absurd (only (Except.ok.inj count)) (by decide)

end Bootstrap.FileMapping
