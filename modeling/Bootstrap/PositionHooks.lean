import Bootstrap.HandleMapping
import Bootstrap.ReadContract

/-! The hooks that a program learns the position of a shadow handle from, and moves it with:
one 64-bit position behind return types of different widths. -/
namespace Bootstrap.FileMapping
open CInt ByteLayout
open ShadowStream (ShadowZip SEEK_SET SEEK_CUR fseekTarget)
open PlainFile (target)

/- off64_t is the type that off_t is here. -/
def myLseek64 (p : Process) (w : World) (fd offset : Int) (whence : Nat) : Except Fault (Int × World) :=
  hooked p w fd
    (fun z =>
      let (ret, z) := ShadowStream.fseek offset whence z
      .ok (if ret = 0 then ShadowStream.ftell z else ret, z))
    (rawLseek fd offset whence)

structure OnHandle (p : Process) (w : World) (stream : Nat) (fd : Int) (z : ShadowZip) : Prop where
  live : w.streams stream = some fd
  shadowed : Shadowed p w fd z

def Uses (stream : Nat) (fd : Int) : Event → Prop
  | .myRead on _ _ => on = fd
  | .myLseek on _ _ => on = fd
  | .myFseek on _ _ _ => on = stream
  | .myFtell on _ => on = stream
  | .myFread _ _ _ on _ => on = stream
  | .myFgets _ _ on _ => on = stream
  | _ => False

inductive Used (p : Process) (stream : Nat) (fd : Int) (w : World) : World → Prop where
  | start : Used p stream fd w w
  | call {w' e w''} (before : Used p stream fd w w') (own : Uses stream fd e) (done : step p w' e = .ok w'') :
      Used p stream fd w w''
  | call64 {w' offset whence ret w''} (before : Used p stream fd w w')
      (done : myLseek64 p w' fd offset whence = .ok (ret, w'')) : Used p stream fd w w''

def Sought (z : ShadowZip) (offset : Int) (whence : Nat) (ret : Int) (z' : ShadowZip) : Prop :=
  let there := target z.endOfFile z.pos.toNat offset whence
  if 0 ≤ there ∧ there ≤ z.endOfFile then ret = there ∧ z'.pos = there else ret = -1 ∧ z'.pos = z.pos

structure PositionsAgree (p : Process) (w : World) (stream : Nat) (fd : Int) (z : ShadowZip) : Prop where
  told : ∀ libc, ∃ w', myFtell p w stream libc = .ok (z.pos, w') ∧ OnHandle p w' stream fd z
  asked : ∃ w', myLseek p w fd 0 SEEK_CUR = .ok (z.pos, w') ∧ OnHandle p w' stream fd z
  asked64 : ∃ w', myLseek64 p w fd 0 SEEK_CUR = .ok (z.pos, w') ∧ OnHandle p w' stream fd z
  moved : ∀ offset whence, -(2 ^ 63) ≤ offset → offset < 2 ^ 63 → ∃ ret w' z',
    myLseek p w fd offset whence = .ok (ret, w') ∧ OnHandle p w' stream fd z' ∧ Sought z offset whence ret z'
  moved64 : ∀ offset whence, -(2 ^ 63) ≤ offset → offset < 2 ^ 63 → ∃ ret w' z',
    myLseek64 p w fd offset whence = .ok (ret, w') ∧ OnHandle p w' stream fd z' ∧ Sought z offset whence ret z'
  restored : ∀ libc libc', ∃ pos w' w'' z', myFtell p w stream libc = .ok (pos, w') ∧
    myFseek p w' stream pos SEEK_SET libc' = .ok (0, w'') ∧ OnHandle p w'' stream fd z' ∧ z'.pos = z.pos

section
variable {p : Process} {w : World} {stream : Nat} {fd : Int} {z : ShadowZip}

theorem hookedHandle {α : Type} (handle : OnHandle p w stream fd z) (member : ShadowZip → Except Stop (α × ShadowZip))
    (libc : World → α × World) : ∃ next : ShadowZip → World,
      hooked p w fd member libc = (inZip (member z)).map (fun r => (r.1, next r.2)) ∧
      ∀ z', OnHandle p (next z') stream fd z' := by
  obtain ⟨next, ran, leads⟩ := hookedShadow handle.shadowed member libc
  exact ⟨next, ran, fun z' => ⟨(leads z').2 ▸ handle.live, (leads z').1⟩⟩

theorem streamHandle {α : Type} (handle : OnHandle p w stream fd z) (member : ShadowZip → Except Stop (α × ShadowZip))
    (libc : Stdio α) : ∃ next : ShadowZip → World,
      hookedStream p w stream member libc = (inZip (member z)).map (fun r => (r.1, next r.2)) ∧
      ∀ z', OnHandle p (next z') stream fd z' := by
  have known : deref w.streams stream = .ok fd := by rw [deref, handle.live]
  rw [hookedStream, exceptOk known]
  exact hookedHandle handle member (stdio fd libc)

def Keeps {α : Type} (p : Process) (stream : Nat) (fd : Int) (result : Except Fault (α × World)) : Prop :=
  ∀ a w, result = .ok (a, w) → ∃ z, OnHandle p w stream fd z

theorem memberKeeps {α : Type} {next : ShadowZip → World} (leads : ∀ z, OnHandle p (next z) stream fd z)
    (result : Except Stop (α × ShadowZip)) : Keeps p stream fd ((inZip result).map (fun r => (r.1, next r.2))) := by
  intro a w done
  cases result with
  | error stop => cases done
  | ok answer =>
    obtain ⟨_, rfl⟩ := Prod.mk.inj (Except.ok.inj done)
    exact ⟨answer.2, leads answer.2⟩

theorem hookedKeeps {α : Type} (handle : OnHandle p w stream fd z) (member : ShadowZip → Except Stop (α × ShadowZip))
    (libc : World → α × World) : Keeps p stream fd (hooked p w fd member libc) := by
  obtain ⟨next, ran, leads⟩ := hookedHandle handle member libc
  rw [ran]
  exact memberKeeps leads (member z)

theorem streamKeeps {α : Type} (handle : OnHandle p w stream fd z) (member : ShadowZip → Except Stop (α × ShadowZip))
    (libc : Stdio α) : Keeps p stream fd (hookedStream p w stream member libc) := by
  obtain ⟨next, ran, leads⟩ := streamHandle handle member libc
  rw [ran]
  exact memberKeeps leads (member z)

theorem stepKeeps {α : Type} {result : Except Fault (α × World)} (keeps : Keeps p stream fd result) {w' : World}
    (done : Prod.snd <$> result = .ok w') : ∃ z, OnHandle p w' stream fd z := by
  cases result with
  | error fault => cases done
  | ok answer =>
    cases done
    exact keeps answer.1 answer.2 rfl

theorem tells (handle : OnHandle p w stream fd z) (libc : Stdio Int) :
    ∃ w', myFtell p w stream libc = .ok (i32 z.pos, w') ∧ OnHandle p w' stream fd z := by
  obtain ⟨next, ran, leads⟩ := streamHandle handle (fun z => .ok (ShadowStream.ftell z, z)) libc
  exact ⟨next z, by rw [myFtell, ran]; rfl, leads z⟩

theorem usesKeeps (handle : OnHandle p w stream fd z) {e : Event} (own : Uses stream fd e) {w' : World}
    (done : step p w e = .ok w') : ∃ z, OnHandle p w' stream fd z := by
  cases e with
  | myRead on buf nbyte =>
    cases own
    exact stepKeeps (hookedKeeps handle _ _) done
  | myLseek on offset whence =>
    cases own
    exact stepKeeps (hookedKeeps handle _ _) done
  | myFseek on offset whence libc =>
    cases own
    exact stepKeeps (streamKeeps handle _ _) done
  | myFread ptr size nmemb on libc =>
    cases own
    exact stepKeeps (streamKeeps handle _ _) done
  | myFgets s size on libc =>
    cases own
    exact stepKeeps (streamKeeps handle _ _) done
  | myFtell on libc =>
    cases own
    obtain ⟨_, told, there⟩ := tells handle libc
    refine stepKeeps (fun a w' same => ?_) done
    rw [told] at same
    cases same
    exact ⟨z, there⟩
  | _ => cases own

theorem usedKeeps (handle : OnHandle p w stream fd z) {w' : World} (used : Used p stream fd w w') :
    ∃ z, OnHandle p w' stream fd z := by
  induction used with
  | start => exact ⟨z, handle⟩
  | call _ own done ih =>
    obtain ⟨_, here⟩ := ih
    exact usesKeeps here own done
  | call64 _ done ih =>
    obtain ⟨_, here⟩ := ih
    exact hookedKeeps here _ _ _ _ done

theorem lseeks (handle : OnHandle p w stream fd z) (offset : Int) (whence : Nat) :
    ∃ w', myLseek p w fd offset whence = .ok (if (ShadowStream.fseek offset whence z).1 = 0 then
        (ShadowStream.fseek offset whence z).2.pos else (ShadowStream.fseek offset whence z).1, w') ∧
      OnHandle p w' stream fd (ShadowStream.fseek offset whence z).2 := by
  obtain ⟨next, ran, leads⟩ := hookedHandle handle
    (fun z => let (ret, z) := ShadowStream.fseek offset whence z
      .ok (if ret = 0 then ShadowStream.ftell z else ret, z)) (rawLseek fd offset whence)
  exact ⟨_, ran, leads _⟩

section
variable {pos : Nat} (cursor : z.pos = pos) (inside : pos ≤ z.endOfFile) (small : z.endOfFile < 2 ^ 63)
include cursor inside small

theorem seeks (handle : OnHandle p w stream fd z) {offset : Int} (low : -(2 ^ 63) ≤ offset) (high : offset < 2 ^ 63)
    (whence : Nat) : ∃ ret w' z', myLseek p w fd offset whence = .ok (ret, w') ∧ OnHandle p w' stream fd z' ∧
      Sought z offset whence ret z' := by
  obtain ⟨w', ran, leads⟩ := lseeks handle offset whence
  refine ⟨_, w', _, ran, leads, ?_⟩
  rw [Sought, fseekTarget cursor inside small low high, cursor, Int.toNat_natCast]
  by_cases there : 0 ≤ target z.endOfFile pos offset whence ∧ target z.endOfFile pos offset whence ≤ z.endOfFile
  · simp only [if_pos there, if_true]
    exact ⟨trivial, trivial⟩
  · simp only [if_neg there]
    exact ⟨rfl, cursor⟩

theorem asks (handle : OnHandle p w stream fd z) :
    ∃ w', myLseek p w fd 0 SEEK_CUR = .ok (z.pos, w') ∧ OnHandle p w' stream fd z := by
  obtain ⟨w', ran, leads⟩ := lseeks handle 0 SEEK_CUR
  have here : target z.endOfFile pos 0 SEEK_CUR = z.pos := (Int.add_zero _).trans cursor.symm
  have still : ShadowStream.fseek 0 SEEK_CUR z = (0, z) := by
    rw [fseekTarget cursor inside small (by decide) (by decide), here, if_pos (by omega)]
  rw [still] at ran leads
  exact ⟨w', ran, leads⟩

theorem restores (handle : OnHandle p w stream fd z) {told : Int} (same : told = pos) (libc : Stdio Int) :
    ∃ w' z', myFseek p w stream told SEEK_SET libc = .ok (0, w') ∧ OnHandle p w' stream fd z' ∧ z'.pos = z.pos := by
  obtain ⟨next, ran, leads⟩ := streamHandle handle
    (fun z => .ok (i32 (ShadowStream.fseek told SEEK_SET z).1, (ShadowStream.fseek told SEEK_SET z).2)) libc
  have sought := fseekTarget cursor inside small (show -(2 ^ 63) ≤ told by omega) (show told < 2 ^ 63 by omega) SEEK_SET
  rw [if_pos ⟨by rw [same]; exact Int.natCast_nonneg _, by rw [same]; exact Int.ofNat_le.mpr inside⟩] at sought
  rw [myFseek, ran, sought]
  exact ⟨_, _, rfl, leads _, same.trans cursor.symm⟩

theorem agreesExactly (handle : OnHandle p w stream fd z) : PositionsAgree p w stream fd z ↔ pos < 2 ^ 31 := by
  constructor
  · intro agree
    obtain ⟨_, told, _⟩ := agree.told ⟨0, 0⟩
    obtain ⟨_, cut, _⟩ := tells handle ⟨0, 0⟩
    have same : z.pos = i32 z.pos := (Prod.mk.inj (Except.ok.inj (told.symm.trans cut))).1
    rw [cursor] at same
    unfold i32 at same
    omega
  · intro short
    have exact_ : i32 z.pos = z.pos := by rw [cursor]; exact i32Exact (by omega) (by omega)
    refine ⟨fun libc => ?_, asks cursor inside small handle, asks cursor inside small handle,
      fun offset whence low high => seeks cursor inside small handle low high whence,
      fun offset whence low high => seeks cursor inside small handle low high whence, fun libc libc' => ?_⟩
    · have told := tells handle libc
      rwa [exact_] at told
    · obtain ⟨w', told, there⟩ := tells handle libc
      obtain ⟨w'', z', back, arrived, same⟩ := restores cursor inside small there (exact_.trans cursor) libc'
      exact ⟨_, w', w'', z', told, back, arrived, same⟩

end

theorem positionsExactly (handle : OnHandle p w stream fd z) {w' : World} (used : Used p stream fd w w') :
    (∃ z', OnHandle p w' stream fd z') ∧ ∀ (z' : ShadowZip) (pos : Nat), OnHandle p w' stream fd z' → z'.pos = pos →
      pos ≤ z'.endOfFile → z'.endOfFile < 2 ^ 63 → (PositionsAgree p w' stream fd z' ↔ pos < 2 ^ 31) :=
  ⟨usedKeeps handle used, fun _ _ there cursor inside small => agreesExactly cursor inside small there⟩

end

/- The descriptor of regionWorld, with any ShadowZip behind it. -/
def regionWith (z : ShadowZip) : World := { regionWorld with zips := fun zip => if zip = 0x2000 then some z else none }

theorem regionCached (data : Bootstrap.ShadowZip.ShadowZipGlobalData) (z : ShadowZip) :
    getCachedShadowzip { regionProcess with data } (regionWith z) 3 = .ok (0x2000, regionWith z) := by
  have mapped : getMemMapping regionProcess regionWorld.toKernel 3 = regionRecord.self := by decide +kernel
  have mapping : getMapping { regionProcess with data } (regionWith z) 3 = (regionRecord.self, regionWith z) := by
    rw [← mapped]
    rfl
  simp only [getCachedShadowzip, mapping]
  rfl

theorem regionHandle (data : Bootstrap.ShadowZip.ShadowZipGlobalData) (z : ShadowZip) :
    OnHandle { regionProcess with data } (regionWith z) 0x1000 3 z :=
  ⟨rfl, 0x2000, regionWith z, regionCached data z, by decide, rfl⟩

theorem regionSought (data : Bootstrap.ShadowZip.ShadowZipGlobalData) (z : ShadowZip) (offset : Int) (whence : Nat) :
    step { regionProcess with data } (regionWith z) (.myLseek 3 offset whence) =
      .ok (regionWith (ShadowStream.fseek offset whence z).2) := by
  have moved : Function.update (regionWith z).zips 0x2000 (some (ShadowStream.fseek offset whence z).2) =
      (regionWith (ShadowStream.fseek offset whence z).2).zips := by
    funext zip
    by_cases here : zip = 0x2000
    · rw [here, Function.update_self]
      rfl
    · rw [Function.update_of_ne here]
      simp only [regionWith, if_neg here]
  have known : deref (regionWith z).zips 0x2000 = .ok z := rfl
  simp only [step, myLseek, hooked, regionCached, bind, Except.bind, known, inZip]
  rw [if_neg (by decide)]
  simp only [moved]
  rfl

theorem samplePositions :
    PositionsAgree regionProcess (regionWith (ShadowStream.sampleOpened 2)) 0x1000 3 (ShadowStream.sampleOpened 2) :=
  ((positionsExactly (regionHandle regionProcess.data (ShadowStream.sampleOpened 0))
    (.call .start (show Uses 0x1000 3 (.myLseek 3 2 SEEK_SET) from rfl) (regionSought regionProcess.data _ 2 SEEK_SET))).2 _ 2
    (regionHandle _ _) rfl (by decide) (by decide)).mpr (by decide)

/- One file of 2^31 bytes. -/
def wideTable : Bootstrap.ShadowZip.ShadowZipGlobalData where
  patchPartitions := [⟨0, 2 ^ 31, 0, 0, 2 ^ 31⟩]
  allFiles := [[97]]
  endOfFile := 2 ^ 31

def wideZip (pos : Int) : ShadowZip := ⟨wideTable, pos, [some ⟨0, [97], 0⟩], [[97]], []⟩

/-- At the end of that file my_ftell answers -2^31. -/
theorem toldInAnInt : ¬∀ (p : Process) (w w' : World) (stream : Nat) (fd : Int) (z z' : ShadowZip),
    OnHandle p w stream fd z → Used p stream fd w w' → OnHandle p w' stream fd z' → 0 ≤ z'.pos →
    z'.pos ≤ z'.endOfFile → z'.endOfFile < 2 ^ 63 → PositionsAgree p w' stream fd z' := by
  intro claim
  have used : Used { regionProcess with data := wideTable } 0x1000 3 (regionWith (wideZip 0)) (regionWith (wideZip (2 ^ 31))) :=
    .call .start (show Uses 0x1000 3 (.myLseek 3 (2 ^ 31) SEEK_SET) from rfl) (regionSought wideTable _ _ _)
  have agree := claim _ _ _ _ _ _ _ (regionHandle wideTable (wideZip 0)) used (regionHandle _ _) (by decide) (by decide)
    (by decide)
  obtain ⟨_, told, _⟩ := agree.told ⟨0, 0⟩
  obtain ⟨_, cut, _⟩ := tells (regionHandle wideTable (wideZip (2 ^ 31))) ⟨0, 0⟩
  have same : (wideZip (2 ^ 31)).pos = i32 (wideZip (2 ^ 31)).pos := (Prod.mk.inj (Except.ok.inj (told.symm.trans cut))).1
  exact absurd same (by decide)

end Bootstrap.FileMapping
