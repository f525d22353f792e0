import Bootstrap.PositionHooks

/-! The virtual APK as a whole: the size that stat tells, and the copy that output_apk makes. -/
namespace Bootstrap.FileMapping
open CInt ByteLayout
open Bootstrap.ShadowZip (ShadowZipGlobalData)
open ShadowStream (ShadowZip Serves At Cached virtualBytes virtualLength SEEK_END fseekTarget)
open PlainFile (Memory store target)

structure Stat where
  id : FileId
  size : Int
  deriving DecidableEq, Repr

def rawStat (p : Process) (w : World) (path : Bytes) : Option Stat :=
  (w.names path).map (fun node => ⟨p.fileId node, (w.contents node).length⟩)

def getEofPos (p : Process) : Nat := p.data.endOfFile

/- off_t has 64 bits here. -/
def myStat (p : Process) (w : World) (path : Bytes) : Option Stat :=
  (rawStat p w path).map (fun stat =>
    if p.apkId = stat.id then
      if 0 < getEofPos p then { stat with size := i64 (getEofPos p) } else stat
    else stat)

section
variable {p : Process} {w : World} {stream : Nat} {fd : Int} {z : ShadowZip} {pos : Nat}

theorem statAgrees (serves : Serves p.files p.data) (some_ : 0 < p.data.endOfFile) (handle : OnHandle p w stream fd z)
    (there : At p.data z pos) {path : Bytes} {node : Nat} (named : w.names path = some node) :
    if isApk p w path then ∃ w' z', myStat p w path = some ⟨p.apkId, (virtualBytes p.files p.data).length⟩ ∧
      myLseek p w fd 0 SEEK_END = .ok (((virtualBytes p.files p.data).length : Int), w') ∧ OnHandle p w' stream fd z' ∧
      At p.data z' (virtualBytes p.files p.data).length
    else myStat p w path = some ⟨p.fileId node, (w.contents node).length⟩ := by
  have same : z.endOfFile = p.data.endOfFile := congrArg ShadowZipGlobalData.endOfFile there.cached.same
  have small := serves.small
  have inside : pos ≤ z.endOfFile := same ▸ there.inside
  have apk : isApk p w path = true ↔ p.apkId = p.fileId node := by
    rw [isApk, named]
    exact beq_iff_eq.trans eq_comm
  have stat : rawStat p w path = some ⟨p.fileId node, (w.contents node).length⟩ := by rw [rawStat, named, Option.map_some]
  rw [virtualLength serves, myStat, stat, Option.map_some]
  by_cases own : p.apkId = p.fileId node
  · obtain ⟨w', ran, leads⟩ := lseeks handle 0 SEEK_END
    have end_ : target z.endOfFile pos 0 SEEK_END = p.data.endOfFile := (Int.add_zero _).trans (congrArg Int.ofNat same)
    have sought : ShadowStream.fseek 0 SEEK_END z = (0, { z with pos := p.data.endOfFile }) := by
      rw [fseekTarget there.cursor inside (same ▸ small) (by decide) (by decide) SEEK_END, end_, if_pos (by omega)]
    rw [sought] at ran leads
    simp only [if_true] at ran
    have exact_ : i64 (getEofPos p) = p.data.endOfFile := i64Exact (by omega) (by rw [getEofPos]; omega)
    rw [if_pos (apk.mpr own)]
    refine ⟨w', _, ?_, ran, leads, ⟨there.cached.same, there.cached.length, there.cached.own⟩, rfl, Nat.le_refl _⟩
    have positive : 0 < getEofPos p := some_
    simp only [own, if_true, if_pos positive, exact_]
  · rw [if_neg (fun yes => own (apk.mp yes))]
    simp only [if_neg own]

end

/- The APK of regionWorld has a name. -/
def namedProcess : Process := { regionProcess with apkId := ⟨0, 1⟩ }
def namedWorld : World := { regionWorld with names := fun path => if path = [97] then some 1 else none }

theorem namedHandle : OnHandle namedProcess namedWorld 0x1000 3 (ShadowStream.sampleOpened 0) := by
  have mapped : getMemMapping namedProcess namedWorld.toKernel 3 = regionRecord.self := by decide +kernel
  have mapping : getMapping namedProcess namedWorld 3 = (regionRecord.self, namedWorld) := by
    rw [← mapped]
    rfl
  refine ⟨rfl, 0x2000, namedWorld, ?_, by decide, rfl⟩
  simp only [getCachedShadowzip, mapping]
  rfl

theorem sampleSizes : ∃ w' z', myStat namedProcess namedWorld [97] = some ⟨⟨0, 1⟩, 5⟩ ∧
    myLseek namedProcess namedWorld 3 0 SEEK_END = .ok (5, w') ∧ OnHandle namedProcess w' 0x1000 3 z' ∧
    At ShadowStream.sampleTable z' 5 :=
  statAgrees (p := namedProcess) ShadowStream.sampleServes (by decide) namedHandle
    ⟨ShadowStream.sampleCached 0, rfl, Nat.zero_le _⟩ (show namedWorld.names [97] = some 1 from rfl)

end Bootstrap.FileMapping

namespace Bootstrap.ShadowStream
open CInt ByteLayout Bootstrap.ShadowZip
open PlainFile (Memory store storeGet)

/- A round of the loop: what is read goes to fwrite, which may take less. A loop that is still
going when its rounds are used up has no result. -/
def outputLoop (files : Files) : Nat → List Nat → Memory → ShadowZip → Except Stop Bytes
  | 0, _, _, _ => .error .failed
  | rounds + 1, writes, buffer, z => do
    let (ret, buffer, z) ← fread files buffer 1 1024 z
    let readCnt := i32 ret
    if readCnt ≤ 0 then return []
    else
      let bytes := (List.range readCnt.toNat).map (fun (i : Nat) => buffer i)
      let writeCnt := min readCnt.toNat (writes.headD readCnt.toNat)
      if writeCnt ≠ readCnt.toNat then return bytes.take writeCnt
      else
        let rest ← outputLoop files rounds writes.tail buffer z
        return bytes ++ rest

/- What test.apk gets. No FILE to write to ends the process. -/
def outputApk (files : Files) (data : ShadowZipGlobalData) (garbage : Int) (opens : Bool) (writes : List Nat) : Except Stop Bytes := do
  let (_, test) ← fopen files (shadowZip data garbage)
  if !opens then throw .faulted
  else outputLoop files (data.endOfFile + 1) writes (fun _ => 0) test

theorem storeRead (buffer : Memory) (bytes : Bytes) : (List.range bytes.length).map (fun (i : Nat) => store buffer 0 bytes i) = bytes := by
  refine List.ext_getElem? fun i => ?_
  by_cases inside : i < bytes.length
  · rw [List.getElem?_map, List.getElem?_range inside, storeGet buffer inside]
    rfl
  · rw [List.getElem?_eq_none (by simpa using inside), List.getElem?_eq_none (by omega)]

variable {files : Files} {data : ShadowZipGlobalData}

theorem freadAt (serves : Serves files data) {pos : Nat} {z : ShadowZip} (there : At data z pos) {size nmemb : Nat} {ptr : Memory}
    (allowed : Allowed pos (.fread size nmemb ptr)) :
    ∃ z', fread files ptr size nmemb z = .ok ((slice (virtualBytes files data) pos (size * nmemb)).length,
      store ptr 0 (slice (virtualBytes files data) pos (size * nmemb)), z') ∧
      At data z' (pos + (slice (virtualBytes files data) pos (size * nmemb)).length) := by
  obtain ⟨z', step, here⟩ := callRefines serves there (.fread size nmemb ptr) allowed
  rw [call] at step
  cases read : fread files ptr size nmemb z with
  | error stop =>
    rw [read] at step
    cases step
  | ok r =>
    obtain ⟨count, memory, last⟩ := r
    rw [read] at step
    cases step
    exact ⟨_, rfl, here⟩

theorem outputRuns (serves : Serves files data) (room : data.endOfFile + 1024 < 2 ^ 63) {rounds pos : Nat} {z : ShadowZip}
    (there : At data z pos) (enough : data.endOfFile - pos < rounds) (writes : List Nat) (buffer : Memory) :
    ∃ out, outputLoop files rounds writes buffer z = .ok out ∧ out <+: (virtualBytes files data).drop pos ∧
      ((∀ n ∈ writes, 1024 ≤ n) → out = (virtualBytes files data).drop pos) := by
  induction rounds generalizing pos z writes buffer with
  | zero => omega
  | succ rounds ih =>
    have length := virtualLength serves
    have inside := there.inside
    obtain ⟨z', read, here⟩ := freadAt serves there (show Allowed pos (.fread 1 1024 buffer) from ⟨by decide, by omega⟩)
    obtain ⟨bytes, own⟩ : ∃ bytes, bytes = slice (virtualBytes files data) pos 1024 := ⟨_, rfl⟩
    have whole : (virtualBytes files data).drop pos = bytes ++ (virtualBytes files data).drop (pos + bytes.length) := by
      rw [← List.drop_drop, own, slice, List.length_take]
      by_cases long : 1024 ≤ ((virtualBytes files data).drop pos).length
      · rw [Nat.min_eq_left long, List.take_append_drop]
      · rw [Nat.min_eq_right (Nat.le_of_not_le long), List.drop_length, List.take_of_length_le (Nat.le_of_not_le long), List.append_nil]
    have size : bytes.length = min 1024 (data.endOfFile - pos) := by
      rw [own, slice, List.length_take, List.length_drop, length]
    rw [← own] at read here
    have count : i32 (bytes.length : Int) = bytes.length := i32Exact (by omega) (by omega)
    rw [outputLoop, exceptOk read]
    dsimp only
    simp only [count, Int.toNat_natCast, storeRead]
    by_cases none_ : (bytes.length : Int) ≤ 0
    · rw [if_pos none_]
      have rest : (virtualBytes files data).drop pos = [] := List.drop_eq_nil_of_le (by omega)
      exact ⟨[], rfl, by rw [rest], fun _ => rest.symm⟩
    · rw [if_neg none_]
      by_cases short : min bytes.length (writes.headD bytes.length) ≠ bytes.length
      · rw [if_pos short]
        refine ⟨_, rfl, ?_, fun full => absurd ?_ short⟩
        · rw [whole]
          exact (List.take_prefix _ _).trans (List.prefix_append _ _)
        · cases writes with
          | nil => exact Nat.min_self _
          | cons n writes =>
            have big := full n List.mem_cons_self
            exact Nat.min_eq_left (by simp only [List.headD_cons]; omega)
      · rw [if_neg short]
        obtain ⟨rest, ran, front, all⟩ := ih here (by omega) writes.tail (store buffer 0 bytes)
        rw [exceptOk ran, whole]
        exact ⟨bytes ++ rest, rfl, (List.prefix_append_right_inj bytes).mpr front,
          fun full => congrArg (bytes ++ ·) (all fun n mem => full n (List.mem_of_mem_tail mem))⟩

theorem outputExact (serves : Serves files data) (room : data.endOfFile + 1024 < 2 ^ 63) (garbage : Int) (writes : List Nat) :
    ∃ out, outputApk files data garbage true writes = .ok out ∧ out <+: virtualBytes files data ∧
      ((∀ n ∈ writes, 1024 ≤ n) → out = virtualBytes files data) := by
  obtain ⟨file, test, opened, there⟩ := fopenAt serves garbage
  obtain ⟨out, ran, front, all⟩ := outputRuns serves room there (Nat.lt_succ_of_le (Nat.sub_le _ _)) writes (fun _ => 0)
  refine ⟨out, ?_, front, all⟩
  rw [outputApk, exceptOk opened]
  exact ran

theorem sampleOutput : ∃ out, outputApk sampleFiles sampleTable 7 true [] = .ok out ∧ out <+: [2, 3, 4, 5, 6] ∧
    ((∀ n ∈ ([] : List Nat), 1024 ≤ n) → out = [2, 3, 4, 5, 6]) :=
  outputExact sampleServes (by decide) 7 []

end Bootstrap.ShadowStream
