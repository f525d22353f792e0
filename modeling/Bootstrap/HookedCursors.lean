import Bootstrap.LineReading
import Bootstrap.WholeApk

/-! Runs of hooked calls with their answers: each descriptor that the APK was opened on has a
cursor of its own on the virtual file, and the others have libc. -/
namespace Bootstrap.FileMapping
open CInt ByteLayout OpenFiles
open Bootstrap.ShadowZip (ShadowZipGlobalData)
open ShadowStream (ShadowZip Serves At virtualBytes virtualLength partitionAt partitionIn partitionInside partitionNone
  LineGoesOn goesOnExactly plainLine fgetsAt fgetsFromFind fopenAt freadAt fseekTarget)
open PlainFile (Memory store storeNil target)

inductive Reply where
  | value (ret : Int)
  | pointer (stream : Nat)
  | filled (count : Int) (memory : Memory)
  | line (s : Option Memory)

def replied {α : Type} (reply : α → Reply) (result : Except Fault (α × World)) : Except Fault (Reply × World) :=
  result.map (fun r => (reply r.1, r.2))

def filled (r : Int × Memory) : Reply := .filled r.1 r.2
def counted (r : Nat × Memory) : Reply := .filled r.1 r.2

def perform (p : Process) (w : World) : Event → Except Fault (Reply × World)
  | .myOpen path flags given => replied .value (myOpen p w path flags given)
  | .myFopen path mode given => replied .pointer (myFopen p w path mode given)
  | .myRead fd buf nbyte => replied filled (myRead p w fd buf nbyte)
  | .myLseek fd offset whence => replied .value (myLseek p w fd offset whence)
  | .myClose fd => replied .value (myClose p w fd)
  | .myFseek stream offset whence libc => replied .value (myFseek p w stream offset whence libc)
  | .myFtell stream libc => replied .value (myFtell p w stream libc)
  | .myFread ptr size nmemb stream libc => replied counted (myFread p w ptr size nmemb stream libc)
  | .myFgets s size stream libc => replied .line (myFgets p w s size stream libc)
  | .myFclose stream => replied .value (myFclose p w stream)

def onStream {α : Type} (w : World) (stream : Nat) (libc : Stdio α) : Except Fault (α × World) := do
  let fd ← deref w.streams stream
  return stdio fd libc w

def libcCall (w : World) : Event → Except Fault (Reply × World)
  | .myOpen path flags given => replied .value (.ok (rawOpen w path flags given))
  | .myFopen path mode given => replied .pointer (.ok (rawFopen w path mode given))
  | .myRead fd buf nbyte => replied filled (.ok (rawRead fd buf nbyte w))
  | .myLseek fd offset whence => replied .value (.ok (rawLseek fd offset whence w))
  | .myClose fd => replied .value (.ok (rawClose fd w))
  | .myFseek stream _ _ libc => replied .value (onStream w stream libc)
  | .myFtell stream libc => replied (fun ret => .value (i32 ret)) (onStream w stream libc)
  | .myFread _ _ _ stream libc => replied counted (onStream w stream libc)
  | .myFgets _ _ stream libc => replied .line (onStream w stream libc)
  | .myFclose stream => replied .value (fclose w stream)

abbrev Cursors := Int → Option Nat

def sought (file : Bytes) (pos : Nat) (offset : Int) (whence : Nat) : Option Nat :=
  let there := target file.length pos offset whence
  if 0 ≤ there ∧ there ≤ file.length then some there.toNat else none

/-- A call through a descriptor that stands at pos: what it answers, and where the descriptor stands then.
fread counts bytes. -/
def onCursor (file : Bytes) (pos : Nat) : Event → Reply × Option Nat
  | .myRead _ buf nbyte =>
    let bytes := slice file pos nbyte
    (.filled bytes.length (store buf 0 bytes), some (pos + bytes.length))
  | .myFread ptr size nmemb _ _ =>
    let bytes := slice file pos (size * nmemb)
    (.filled bytes.length (store ptr 0 bytes), some (pos + bytes.length))
  | .myLseek _ offset whence =>
    let there := sought file pos offset whence
    (.value (there.elim (-1) (fun pos => (pos : Int))), some (there.getD pos))
  | .myFseek _ offset whence _ =>
    let there := sought file pos offset whence
    (.value (if there.isSome then 0 else -1), some (there.getD pos))
  | .myFtell _ _ => (.value (i32 pos), some pos)
  | .myFgets s size _ _ => (.line (PlainFile.fgets file pos size s).1, some (PlainFile.fgets file pos size s).2)
  | _ => (.value 0, none)

def descriptor (w : World) : Event → Option Int
  | .myRead fd _ _ => some fd
  | .myLseek fd _ _ => some fd
  | .myClose fd => some fd
  | .myFseek stream _ _ _ => w.streams stream
  | .myFtell stream _ => w.streams stream
  | .myFread _ _ _ stream _ => w.streams stream
  | .myFgets _ _ stream _ => w.streams stream
  | .myFclose stream => w.streams stream
  | .myOpen _ _ _ => none
  | .myFopen _ _ _ => none

def apkGiven (p : Process) (w : World) : Event → Option Given
  | .myOpen path _ given => if isApk p w path then some given else none
  | .myFopen path _ given => if isApk p w path then some given else none
  | _ => none

def handle (given : Given) : Event → Reply
  | .myFopen _ _ _ => .pointer given.stream
  | _ => .value given.fd

def Cursors.after (p : Process) (c : Cursors) (w : World) (e : Event) : Cursors :=
  match apkGiven p w e with
  | some given => if zipOpens p given then Function.update c given.fd (some 0) else c
  | none =>
    match descriptor w e with
    | none => c
    | some fd =>
      match c fd with
      | none => c
      | some pos => Function.update c fd (onCursor (virtualBytes p.files p.data) pos e).2

/-- What is asked of a handle: counts that an int holds, offsets that off64_t holds, and of fgets a line
that goes on in its file as it does in the virtual file. -/
def Asks (p : Process) (pos : Nat) : Event → Prop
  | .myRead _ _ nbyte => nbyte < 2 ^ 31 ∧ pos + nbyte < 2 ^ 63
  | .myFread _ size nmemb _ _ => nmemb < 2 ^ 31 ∧ pos + size * nmemb < 2 ^ 63
  | .myLseek _ offset _ => -(2 ^ 63) ≤ offset ∧ offset < 2 ^ 63
  | .myFseek _ offset _ _ => -(2 ^ 63) ≤ offset ∧ offset < 2 ^ 63
  | .myFgets _ size _ _ => (2 ≤ size ∧ size < 2 ^ 31) ∧
    ∀ info, partitionAt p.data pos = some info → LineGoesOn p.files p.data pos size info
  | _ => True

def AsksAll (p : Process) (c : Cursors) (w : World) (e : Event) : Prop :=
  ∀ fd pos, descriptor w e = some fd → c fd = some pos → Asks p pos e

inductive Ran (p : Process) : Cursors → Table → World → Prop where
  | start {w} (fresh : Fresh p w) : Ran p (fun _ => none) (fun _ => none) w
  | call {c t w e w'} (before : Ran p c t w) (allowed : Allowed p w e) (saved : SavedEvent p t w e)
      (asked : AsksAll p c w e) (done : step p w e = .ok w') :
      Ran p (c.after p w e) ((effect p t w e).table t) w'

structure Aside (c : Cursors) (w w' : World) : Prop where
  fds : ∀ fd, c fd = none → w'.fds fd = w.fds fd
  contents : w'.contents = w.contents

/-- The property: an open of the APK gives a handle on the descriptor that the system chose, every call through
a handle answers as on the virtual file and leaves all else alone, and every other call is libc's. -/
structure Serving (p : Process) (c : Cursors) (t : Table) (w : World) : Prop where
  handles : ∀ fd, (c fd).isSome ↔ (t fd).isSome
  inside : ∀ fd pos, c fd = some pos → pos ≤ (virtualBytes p.files p.data).length
  opens : ∀ e given, apkGiven p w e = some given → zipOpens p given = true → given.refused = false →
    ∃ w', perform p w e = .ok (handle given e, w') ∧ ∀ fd, fd ≠ given.fd → w'.fds fd = w.fds fd
  fails : ∀ e given, Allowed p w e → apkGiven p w e = some given → zipOpens p given = false →
    perform p w e = (libcCall w e).map
      (fun r => (r.1, { r.2 with notes := w.notes ++ [.newZip given.zip, .deletedZip given.zip] }))
  answers : ∀ e fd pos, descriptor w e = some fd → c fd = some pos → Asks p pos e →
    ∃ w', perform p w e = .ok ((onCursor (virtualBytes p.files p.data) pos e).1, w') ∧ Aside c w w'
  others : ∀ e, apkGiven p w e = none → (∀ fd, descriptor w e = some fd → c fd = none) → perform p w e = libcCall w e

structure Standing (p : Process) (c : Cursors) (t : Table) (w : World) : Prop where
  bare : ∀ fd, t fd = none → c fd = none
  stands : ∀ fd r, t fd = some r → ∃ pos z, c fd = some pos ∧ w.zips r.shadowZip = some z ∧ At p.data z pos

section
variable {p : Process} {c : Cursors} {t : Table} {w : World} {α : Type}

theorem repliedStep (reply : α → Reply) (result : Except Fault (α × World)) :
    Prod.snd <$> result = (replied reply result).map Prod.snd := by
  cases result <;> rfl

theorem performStep (e : Event) : step p w e = (perform p w e).map Prod.snd := by
  cases e <;> exact repliedStep _ _

theorem ranReached (ran : Ran p c t w) : Reached p (SavedEvent p) t w := by
  induction ran with
  | start fresh => exact .start fresh
  | call before allowed saved asked done ih => exact .call ih allowed saved done

theorem standsAt (standing : Standing p c t w) {fd : Int} {pos : Nat} (here : c fd = some pos) :
    ∃ r z, t fd = some r ∧ w.zips r.shadowZip = some z ∧ At p.data z pos := by
  cases entry : t fd with
  | none =>
    rw [standing.bare fd entry] at here
    cases here
  | some r =>
    obtain ⟨at_, z, stands, live, there⟩ := standing.stands fd r entry
    rw [stands] at here
    cases here
    exact ⟨r, z, rfl, live, there⟩

theorem standingFrame (standing : Standing p c t w) {w' : World} (zips : w'.zips = w.zips) : Standing p c t w' :=
  ⟨standing.bare, zips ▸ standing.stands⟩

theorem standingMoved (inv : Inv p t w) (standing : Standing p c t w) {fd : Int} {r : FileExtraData} (entry : t fd = some r)
    {z : ShadowZip} {pos : Nat} (there : At p.data z pos) :
    Standing p (Function.update c fd (some pos)) t { w with zips := Function.update w.zips r.shadowZip (some z) } := by
  refine ⟨fun other absent => ?_, fun other s kept => ?_⟩
  · rw [Function.update_of_ne (entryApart absent entry).symm]
    exact standing.bare other absent
  · by_cases same : other = fd
    · subst same
      rw [entry] at kept
      cases kept
      exact ⟨pos, z, Function.update_self _ _ _, Function.update_self _ _ _, there⟩
    · obtain ⟨at_, last, stands, live, still⟩ := standing.stands other s kept
      have apart : s.shadowZip ≠ r.shadowZip := fun hit => same (inv.owned.zipApart other s fd r kept entry hit)
      exact ⟨at_, last, (Function.update_of_ne same _ _).trans stands, (Function.update_of_ne apart _ _).trans live, still⟩

theorem standingClosed (inv : Inv p t w) (standing : Standing p c t w) {fd : Int} {r : FileExtraData} (entry : t fd = some r) :
    Standing p (Function.update c fd none) (Function.update t fd none) (cleaned p w fd r) := by
  refine ⟨fun other absent => ?_, fun other s kept => ?_⟩
  · by_cases same : other = fd
    · rw [same, Function.update_self]
    · rw [Function.update_of_ne same] at absent ⊢
      exact standing.bare other absent
  · obtain ⟨away, kept⟩ := clearedEntry.mp kept
    obtain ⟨pos, z, stands, live, there⟩ := standing.stands other s kept
    have apart : s.shadowZip ≠ r.shadowZip := fun hit => away (inv.owned.zipApart other s fd r kept entry hit)
    exact ⟨pos, z, (Function.update_of_ne away _ _).trans stands, (Function.update_of_ne apart _ _).trans live, there⟩

theorem standingOpened (standing : Standing p c t w) {given : Given} (free : Free w given) {z : ShadowZip}
    (there : At p.data z 0) : Standing p (Function.update c given.fd (some 0))
      (Function.update t given.fd (some (newRecord p given))) (created p w given z) := by
  refine ⟨fun other absent => ?_, fun other s kept => ?_⟩
  · by_cases same : other = given.fd
    · rw [same, Function.update_self] at absent
      cases absent
    · rw [Function.update_of_ne same] at absent ⊢
      exact standing.bare other absent
  · rcases putEntry.mp kept with ⟨rfl, rfl⟩ | ⟨away, kept⟩
    · exact ⟨0, z, Function.update_self _ _ _, Function.update_self _ _ _, there⟩
    · obtain ⟨pos, last, stands, live, still⟩ := standing.stands other s kept
      exact ⟨pos, last, (Function.update_of_ne away _ _).trans stands, entryKept free.zipFree live, still⟩

def Member (p : Process) (pos : Nat) (member : ShadowZip → Except Stop (α × ShadowZip)) (a : α) (pos' : Nat) : Prop :=
  ∀ z, At p.data z pos → ∃ z', member z = .ok (a, z') ∧ At p.data z' pos'

def Answers (p : Process) (c : Cursors) (t : Table) (w : World) (fd : Int) (result : Except Fault (α × World)) (a : α)
    (pos : Option Nat) : Prop :=
  ∃ w', result = .ok (a, w') ∧ Aside c w w' ∧ Standing p (Function.update c fd pos) t w'

theorem hookedAnswers (inv : Inv p t w) (standing : Standing p c t w) {fd : Int} {pos pos' : Nat} (here : c fd = some pos)
    {member : ShadowZip → Except Stop (α × ShadowZip)} {a : α} (does : Member p pos member a pos') (libc : World → α × World) :
    Answers p c t w fd (hooked p w fd member libc) a (some pos') := by
  obtain ⟨r, z, entry, live, there⟩ := standsAt standing here
  obtain ⟨z', ran, moved⟩ := does z there
  refine ⟨{ w with zips := Function.update w.zips r.shadowZip (some z') }, ?_, ⟨fun _ _ => rfl, rfl⟩,
    standingMoved inv standing entry moved⟩
  simp only [hooked, cachedPresent inv entry, bind, Except.bind, if_neg (inv.owned.zip fd r entry).1, derefSome live, ran, inZip]
  rfl

theorem streamAnswers (inv : Inv p t w) (standing : Standing p c t w) {stream : Nat} {fd : Int} (on : w.streams stream = some fd)
    {pos pos' : Nat} (here : c fd = some pos) {member : ShadowZip → Except Stop (α × ShadowZip)} {a : α}
    (does : Member p pos member a pos') (libc : Stdio α) :
    Answers p c t w fd (hookedStream p w stream member libc) a (some pos') := by
  rw [hookedStream, exceptOk (derefSome on)]
  exact hookedAnswers inv standing here does (stdio fd libc)

theorem repliedAnswers {fd : Int} {result : Except Fault (α × World)} {a : α} {pos : Option Nat}
    (answers : Answers p c t w fd result a pos) (reply : α → Reply) :
    Answers p c t w fd (replied reply result) (reply a) pos := by
  obtain ⟨w', ran, rest⟩ := answers
  exact ⟨w', by rw [ran]; rfl, rest⟩

section
variable (serves : Serves p.files p.data) {pos : Nat}
include serves

theorem freadServed {z : ShadowZip} (there : At p.data z pos) {size nmemb : Nat} (int : nmemb < 2 ^ 31)
    (fits : pos + size * nmemb < 2 ^ 63) (ptr : Memory) :
    ∃ z', ShadowStream.fread p.files ptr size nmemb z = .ok ((slice (virtualBytes p.files p.data) pos (size * nmemb)).length,
      store ptr 0 (slice (virtualBytes p.files p.data) pos (size * nmemb)), z') ∧
      At p.data z' (pos + (slice (virtualBytes p.files p.data) pos (size * nmemb)).length) := by
  by_cases none_ : nmemb = 0
  · subst none_
    rw [Nat.mul_zero, sliceEmpty, storeNil]
    exact ⟨z, by rw [ShadowStream.fread, if_pos (by decide)]; rfl, there⟩
  · exact freadAt serves there ⟨⟨Nat.pos_of_ne_zero none_, int⟩, fits⟩

theorem readMember {nbyte : Nat} (int : nbyte < 2 ^ 31) (fits : pos + nbyte < 2 ^ 63) (buf : Memory) :
    Member p pos (fun z => do
      let (ret, buf, z) ← ShadowStream.fread p.files buf 1 nbyte z
      return ((i64 ret, buf), z))
      (((slice (virtualBytes p.files p.data) pos nbyte).length : Int), store buf 0 (slice (virtualBytes p.files p.data) pos nbyte))
      (pos + (slice (virtualBytes p.files p.data) pos nbyte).length) := by
  intro z there
  obtain ⟨z', read, moved⟩ := freadServed serves there int (show pos + 1 * nbyte < 2 ^ 63 by omega) buf
  rw [Nat.one_mul] at read moved
  have short := sliceLengthLe (virtualBytes p.files p.data) pos nbyte
  refine ⟨z', ?_, moved⟩
  dsimp only
  rw [exceptOk read, i64Exact (by omega) (by omega)]
  rfl

theorem freadMember {size nmemb : Nat} (int : nmemb < 2 ^ 31) (fits : pos + size * nmemb < 2 ^ 63) (ptr : Memory) :
    Member p pos (fun z => do
      let (ret, ptr, z) ← ShadowStream.fread p.files ptr size nmemb z
      return ((ret, ptr), z))
      ((slice (virtualBytes p.files p.data) pos (size * nmemb)).length,
        store ptr 0 (slice (virtualBytes p.files p.data) pos (size * nmemb)))
      (pos + (slice (virtualBytes p.files p.data) pos (size * nmemb)).length) := by
  intro z there
  obtain ⟨z', read, moved⟩ := freadServed serves there int fits ptr
  refine ⟨z', ?_, moved⟩
  dsimp only
  rw [exceptOk read]
  rfl

theorem fgetsMember {size : Int} (some_ : 2 ≤ size) (int : size < 2 ^ 31)
    (goesOn : ∀ info, partitionAt p.data pos = some info → LineGoesOn p.files p.data pos size info) (s : Memory) :
    Member p pos (ShadowStream.fgets p.files s size) (PlainFile.fgets (virtualBytes p.files p.data) pos size s).1
      (PlainFile.fgets (virtualBytes p.files p.data) pos size s).2 := by
  intro z there
  obtain ⟨cached, cursor, inside⟩ := there
  have table : z.patchPartitions = p.data.patchPartitions := congrArg ShadowZipGlobalData.patchPartitions cached.same
  have small := serves.small
  have length := virtualLength serves
  have begin_ : u64 (pos : Int) = pos := u64Exact (by omega)
  rw [ShadowStream.fgets, fgetsFromFind, table]
  simp only [cursor, begin_]
  rw [← partitionAt]
  cases found : partitionAt p.data pos with
  | none =>
    have past := partitionNone serves.tabled found
    have nothing : (virtualBytes p.files p.data).drop pos = [] := List.drop_eq_nil_iff.mpr (by omega)
    simp only [PlainFile.fgets, nothing, PlainFile.lineOf, List.take_nil, if_true]
    exact ⟨z, rfl, cached, cursor, inside⟩
  | some info =>
    obtain ⟨mem, low, high⟩ := partitionIn serves.tabled found
    have below := partitionInside serves.tabled found
    -- the line of the file is the line of the virtual file
    have same := (goesOnExactly serves mem low high size).mp (goesOn info found)
    obtain ⟨some', within⟩ := plainLine serves (show pos < p.data.endOfFile by omega) (show (size - 1).toNat ≠ 0 by omega)
    obtain ⟨z', ran, moved, kept⟩ := fgetsAt serves cached cursor some_ (s := s) mem low high same.symm
    simp only [ran, PlainFile.fgets, if_neg some']
    refine ⟨z', rfl, kept, ?_, by omega⟩
    rw [moved, i64Exact (by omega) (by omega), Int.natCast_add]

theorem seekAt {offset : Int} {whence : Nat} (low : -(2 ^ 63) ≤ offset) (high : offset < 2 ^ 63) {z : ShadowZip}
    (there : At p.data z pos) : ∃ z', ShadowStream.fseek offset whence z =
      (if (sought (virtualBytes p.files p.data) pos offset whence).isSome then 0 else -1, z') ∧
      At p.data z' ((sought (virtualBytes p.files p.data) pos offset whence).getD pos) := by
  obtain ⟨cached, cursor, inside⟩ := there
  have length := virtualLength serves
  have small := serves.small
  have same : z.endOfFile = p.data.endOfFile := congrArg ShadowZipGlobalData.endOfFile cached.same
  rw [fseekTarget cursor (same ▸ inside) (same ▸ small) low high, sought, length, same]
  split
  · rename_i range
    exact ⟨_, rfl, ⟨cached.same, cached.length, cached.own⟩, by dsimp only [Option.getD_some]; omega,
      by dsimp only [Option.getD_some]; omega⟩
  · exact ⟨z, rfl, cached, cursor, inside⟩

theorem lseekMember {offset : Int} {whence : Nat} (low : -(2 ^ 63) ≤ offset) (high : offset < 2 ^ 63) :
    Member p pos (fun z =>
      let (ret, z) := ShadowStream.fseek offset whence z
      .ok (if ret = 0 then ShadowStream.ftell z else ret, z))
      ((sought (virtualBytes p.files p.data) pos offset whence).elim (-1) (fun pos => (pos : Int)))
      ((sought (virtualBytes p.files p.data) pos offset whence).getD pos) := by
  intro z there
  obtain ⟨z', leads, stands⟩ := seekAt serves low high there
  refine ⟨z', ?_, stands⟩
  have cursor := stands.cursor
  cases found : sought (virtualBytes p.files p.data) pos offset whence with
  | none =>
    simp only [leads, found]
    rfl
  | some pos' =>
    rw [found, Option.getD_some] at cursor
    simp only [leads, found, Option.isSome_some, if_true, ShadowStream.ftell, cursor, Option.elim_some]

theorem fseekMember {offset : Int} {whence : Nat} (low : -(2 ^ 63) ≤ offset) (high : offset < 2 ^ 63) :
    Member p pos (fun z => .ok (i32 (ShadowStream.fseek offset whence z).1, (ShadowStream.fseek offset whence z).2))
      (if (sought (virtualBytes p.files p.data) pos offset whence).isSome then 0 else -1)
      ((sought (virtualBytes p.files p.data) pos offset whence).getD pos) := by
  intro z there
  obtain ⟨z', leads, stands⟩ := seekAt serves low high there
  refine ⟨z', ?_, stands⟩
  simp only [leads]
  cases (sought (virtualBytes p.files p.data) pos offset whence).isSome <;> rfl

omit serves in
theorem ftellMember : Member p pos (fun z => .ok (ShadowStream.ftell z, z)) (pos : Int) pos :=
  fun z stands => ⟨z, by simp only [ShadowStream.ftell, stands.cursor], stands⟩

end

theorem cleanAnswers (inv : Inv p t w) (standing : Standing p c t w) {fd : Int} {r : FileExtraData} (entry : t fd = some r)
    {pos : Nat} (here : c fd = some pos) :
    Answers p c ((closing t fd).table t) w fd (do let w ← cleanMappingData p w r.self; return ((0 : Int), w)) 0 none := by
  refine ⟨cleaned p w fd r, by rw [exceptOk (cleanExact inv.linked inv.owned entry)]; rfl, ⟨fun other bare => ?_, ?_⟩, ?_⟩
  · have away : other ≠ fd := (entryApart bare here).symm
    unfold cleaned
    dsimp only
    split <;> exact Kernel.setFileOther _ away none
  · unfold cleaned
    dsimp only
    split <;> rfl
  · simp only [closing, entry, Effect.table, (inv.linked.mapped fd r entry).own]
    exact standingClosed inv standing entry

theorem handleFound (inv : Inv p t w) (standing : Standing p c t w) {fd : Int} {pos : Nat} (here : c fd = some pos) :
    ∃ r, t fd = some r ∧ getMapping p w fd = (r.self, w) ∧ r.self ≠ NULL := by
  obtain ⟨r, _, entry, _⟩ := standsAt standing here
  have self : recordOf t fd = r.self := by rw [recordOf, entry]
  exact ⟨r, entry, by rw [invMapping inv, self], (inv.linked.mapped fd r entry).self⟩

theorem closeAnswers (inv : Inv p t w) (standing : Standing p c t w) {fd : Int} {pos : Nat} (here : c fd = some pos) :
    Answers p c ((closing t fd).table t) w fd (myClose p w fd) 0 none := by
  obtain ⟨r, entry, mapping, live⟩ := handleFound inv standing here
  simp only [myClose, mapping, ne_eq, live, not_false_eq_true, if_true]
  exact cleanAnswers inv standing entry here

theorem fcloseSame (inv : Inv p t w) (standing : Standing p c t w) {stream : Nat} {fd : Int} (on : w.streams stream = some fd)
    {pos : Nat} (here : c fd = some pos) : myFclose p w stream = myClose p w fd := by
  obtain ⟨r, _, mapping, live⟩ := handleFound inv standing here
  rw [myFclose, exceptOk (derefSome on)]
  simp only [myClose, mapping, ne_eq, live, not_false_eq_true, if_true]

theorem handleAnswers (serves : Serves p.files p.data) (inv : Inv p t w) (standing : Standing p c t w) {e : Event} {fd : Int}
    {pos : Nat} (on : descriptor w e = some fd) (here : c fd = some pos) (asks : Asks p pos e) :
    Answers p c ((effect p t w e).table t) w fd (perform p w e) (onCursor (virtualBytes p.files p.data) pos e).1
      (onCursor (virtualBytes p.files p.data) pos e).2 := by
  cases e with
  | myOpen path flags given => cases on
  | myFopen path mode given => cases on
  | myRead _ buf nbyte =>
    cases on
    exact repliedAnswers (hookedAnswers inv standing here (readMember serves asks.1 asks.2 buf) _) filled
  | myLseek _ offset whence =>
    cases on
    exact repliedAnswers (hookedAnswers inv standing here (lseekMember serves asks.1 asks.2) _) .value
  | myFseek stream offset whence libc =>
    exact repliedAnswers (streamAnswers inv standing on here (fseekMember serves asks.1 asks.2) libc) .value
  | myFtell stream libc =>
    obtain ⟨w', ran, rest⟩ := streamAnswers inv standing on here ftellMember libc
    exact ⟨w', by rw [perform, myFtell, exceptOk ran]; rfl, rest⟩
  | myFread ptr size nmemb stream libc =>
    exact repliedAnswers (streamAnswers inv standing on here (freadMember serves asks.1 asks.2 ptr) libc) counted
  | myFgets s size stream libc =>
    exact repliedAnswers (streamAnswers inv standing on here (fgetsMember serves asks.1.1 asks.1.2 asks.2 s) libc) .line
  | myClose _ =>
    cases on
    exact repliedAnswers (closeAnswers inv standing here) .value
  | myFclose stream =>
    simp only [effect, show w.streams stream = some fd from on]
    rw [perform, fcloseSame inv standing on here]
    exact repliedAnswers (closeAnswers inv standing here) .value

theorem apkCases {e : Event} {given : Given} (apk : apkGiven p w e = some given) :
    (∃ path flags, e = .myOpen path flags given ∧ isApk p w path = true) ∨
    (∃ path mode, e = .myFopen path mode given ∧ isApk p w path = true) := by
  cases e with
  | myOpen path flags own =>
    rw [apkGiven, Option.ite_none_right_eq_some] at apk
    obtain ⟨yes, same⟩ := apk
    cases same
    exact .inl ⟨path, flags, rfl, yes⟩
  | myFopen path mode own =>
    rw [apkGiven, Option.ite_none_right_eq_some] at apk
    obtain ⟨yes, same⟩ := apk
    cases same
    exact .inr ⟨path, mode, rfl, yes⟩
  | _ => cases apk

theorem apkFree {e : Event} {given : Given} (allowed : Allowed p w e) (apk : apkGiven p w e = some given) : Free w given := by
  rcases apkCases apk with ⟨path, flags, rfl, _⟩ | ⟨path, mode, rfl, _⟩
  · exact allowed.1
  · exact allowed.1

theorem plainPath {path : Bytes} {given : Given} (plain : (if isApk p w path then some given else none) = none) :
    ¬isApk p w path = true := by
  intro yes
  rw [if_pos yes] at plain
  cases plain

theorem openShadowOpens (serves : Serves p.files p.data) {given : Given} (opens : zipOpens p given = true) :
    ∃ z, At p.data z 0 ∧ openShadow p w given =
      if given.refused then .error (.stopped .exited) else .ok (some (newRecord p given), created p w given z) := by
  obtain ⟨file, z, opened, there⟩ := fopenAt serves given.pos
  rw [zipOpens, opened] at opens
  cases file with
  | none => cases opens
  | some fp =>
    refine ⟨z, there, ?_⟩
    unfold openShadow
    simp only [opened, bind, Except.bind, inZip, saveMappingExact]
    cases given.refused with
    | true => rfl
    | false =>
      simp only [Bool.false_eq_true, if_false, List.append_assoc, List.cons_append, List.nil_append]
      rfl

theorem createdElsewhere (given : Given) (z : ShadowZip) {fd : Int} (away : fd ≠ given.fd) :
    (created p w given z).fds fd = w.fds fd := by
  unfold created savedKernel
  dsimp only
  split
  · exact Kernel.setFileOther _ away _
  · exact Function.update_of_ne away _ _

theorem apkOpens (serves : Serves p.files p.data) {e : Event} {given : Given} (apk : apkGiven p w e = some given)
    (opens : zipOpens p given = true) : ∃ z, At p.data z 0 ∧ perform p w e =
      if given.refused then .error (.stopped .exited) else .ok (handle given e, created p w given z) := by
  obtain ⟨z, there, opened⟩ := openShadowOpens (w := w) serves opens
  refine ⟨z, there, ?_⟩
  rcases apkCases apk with ⟨path, flags, rfl, yes⟩ | ⟨path, mode, rfl, yes⟩
  · rw [perform, myOpen, if_pos yes, opened]
    cases given.refused <;> rfl
  · rw [perform, myFopen, if_pos yes, opened]
    cases given.refused <;> rfl

theorem openShadowFails (serves : Serves p.files p.data) {given : Given} (free : Free w given) (fails : zipOpens p given = false) :
    openShadow p w given = .ok (none, { w with notes := w.notes ++ [.newZip given.zip, .deletedZip given.zip] }) := by
  rcases openShadowCases (p := p) free.zip.1 free.zipFree with ⟨stop, stopped⟩ | ⟨_, failed⟩ | ⟨opens, _⟩
  · obtain ⟨file, z, opened, _⟩ := fopenAt serves given.pos
    rw [zipOpens, opened] at fails
    cases file with
    | some fp => cases fails
    | none =>
      simp only [openShadow, opened, bind, Except.bind, inZip, deleteZip, if_neg free.zip.1, deref, Function.update_self] at stopped
      cases stopped
  · exact failed
  · rw [opens] at fails
    cases fails

theorem bareAbsent (standing : Standing p c t w) {fd : Int} (bare : c fd = none) : t fd = none := by
  cases entry : t fd with
  | none => rfl
  | some r =>
    obtain ⟨_, _, stands, _⟩ := standing.stands fd r entry
    rw [stands] at bare
    cases bare

theorem streamBare (inv : Inv p t w) {stream : Nat} (bare : ∀ fd, w.streams stream = some fd → t fd = none)
    (member : ShadowZip → Except Stop (α × ShadowZip)) (libc : Stdio α) :
    hookedStream p w stream member libc = onStream w stream libc := by
  cases on : w.streams stream with
  | none => simp only [hookedStream, onStream, deref, on, bind, Except.bind]
  | some fd =>
    rw [hookedStream, onStream, exceptOk (derefSome on), exceptOk (derefSome on), hookedRaw inv (bare fd on)]
    rfl

theorem bareCalls (inv : Inv p t w) (standing : Standing p c t w) {e : Event} (plain : apkGiven p w e = none)
    (bare : ∀ fd, descriptor w e = some fd → c fd = none) : perform p w e = libcCall w e := by
  have absent : ∀ fd, descriptor w e = some fd → t fd = none := fun fd on => bareAbsent standing (bare fd on)
  cases e with
  | myOpen path flags given =>
    rw [perform, myOpen, if_neg (plainPath plain)]
    rfl
  | myFopen path mode given =>
    rw [perform, myFopen, if_neg (plainPath plain)]
    rfl
  | myRead fd buf nbyte => exact congrArg (replied filled) (hookedRaw inv (absent fd rfl) _ _)
  | myLseek fd offset whence => exact congrArg (replied .value) (hookedRaw inv (absent fd rfl) _ _)
  | myClose fd => exact congrArg (replied .value) (myCloseRaw inv (absent fd rfl))
  | myFseek stream offset whence libc => exact congrArg (replied .value) (streamBare inv absent _ libc)
  | myFtell stream libc =>
    rw [perform, myFtell, streamBare inv absent, libcCall]
    cases onStream w stream libc <;> rfl
  | myFread ptr size nmemb stream libc => exact congrArg (replied counted) (streamBare inv absent _ libc)
  | myFgets s size stream libc => exact congrArg (replied .line) (streamBare inv absent _ libc)
  | myFclose stream =>
    cases on : w.streams stream with
    | none => simp only [perform, libcCall, myFclose, fclose, deref, on, bind, Except.bind]
    | some fd =>
      have null : recordOf t fd = NULL := by rw [recordOf, absent fd on]
      rw [perform, libcCall, myFclose, exceptOk (derefSome on)]
      simp only [invMapping inv, null, ne_eq, not_true_eq_false, if_false]

theorem rawOpenNotes (path : Bytes) (flags : Flags) (given : Given) (notes : List Note) :
    rawOpen { w with notes } path flags given =
      ((rawOpen w path flags given).1, { (rawOpen w path flags given).2 with notes }) := by
  unfold rawOpen
  dsimp only
  split <;> rfl

theorem rawFopenNotes (path : Bytes) (mode : Flags) (given : Given) (notes : List Note) :
    rawFopen { w with notes } path mode given =
      ((rawFopen w path mode given).1, { (rawFopen w path mode given).2 with notes }) := by
  unfold rawFopen
  dsimp only
  split <;> rfl

theorem failedOpens (serves : Serves p.files p.data) {e : Event} {given : Given} (allowed : Allowed p w e)
    (apk : apkGiven p w e = some given) (fails : zipOpens p given = false) :
    perform p w e = (libcCall w e).map
      (fun r => (r.1, { r.2 with notes := w.notes ++ [.newZip given.zip, .deletedZip given.zip] })) := by
  rcases apkCases apk with ⟨path, flags, rfl, yes⟩ | ⟨path, mode, rfl, yes⟩
  · rw [perform, myOpen, if_pos yes, exceptOk (openShadowFails serves allowed.1 fails)]
    dsimp only
    rw [rawOpenNotes]
    rfl
  · rw [perform, myFopen, if_pos yes, exceptOk (openShadowFails serves allowed.1 fails)]
    dsimp only
    rw [rawFopenNotes]
    rfl

theorem repliedOk {reply : α → Reply} {result : Except Fault (α × World)} {a : Reply} {w' : World}
    (done : replied reply result = .ok (a, w')) : ∃ b, result = .ok (b, w') := by
  cases result with
  | error fault => cases done
  | ok r =>
    cases done
    exact ⟨r.1, rfl⟩

theorem onStreamZips {stream : Nat} {libc : Stdio α} {a : α} {w' : World} (done : onStream w stream libc = .ok (a, w')) :
    w'.zips = w.zips := by
  cases on : w.streams stream with
  | none =>
    rw [onStream, deref, on] at done
    cases done
  | some fd =>
    rw [onStream, exceptOk (derefSome on)] at done
    cases done
    rfl

theorem rawOpenZips (path : Bytes) (flags : Flags) (given : Given) : (rawOpen w path flags given).2.zips = w.zips := by
  unfold rawOpen
  split <;> rfl

theorem rawFopenZips (path : Bytes) (mode : Flags) (given : Given) : (rawFopen w path mode given).2.zips = w.zips := by
  unfold rawFopen
  split <;> rfl

theorem libcZips {e : Event} {a : Reply} {w' : World} (done : libcCall w e = .ok (a, w')) : w'.zips = w.zips := by
  cases e with
  | myOpen path flags given =>
    cases done
    exact rawOpenZips path flags given
  | myFopen path mode given =>
    cases done
    exact rawFopenZips path mode given
  | myRead fd buf nbyte =>
    cases done
    rfl
  | myLseek fd offset whence =>
    cases done
    rfl
  | myClose fd =>
    cases done
    rfl
  | myFclose stream =>
    obtain ⟨b, same⟩ := repliedOk done
    cases on : w.streams stream with
    | none =>
      rw [fclose, deref, on] at same
      cases same
    | some fd =>
      rw [fclose, exceptOk (derefSome on)] at same
      cases same
      rfl
  | myFseek stream offset whence libc =>
    obtain ⟨_, same⟩ := repliedOk done
    exact onStreamZips same
  | myFtell stream libc =>
    rw [libcCall] at done
    obtain ⟨_, same⟩ := repliedOk done
    exact onStreamZips same
  | myFread ptr size nmemb stream libc =>
    obtain ⟨_, same⟩ := repliedOk done
    exact onStreamZips same
  | myFgets s size stream libc =>
    obtain ⟨_, same⟩ := repliedOk done
    exact onStreamZips same

theorem effectBare (standing : Standing p c t w) {e : Event} (plain : apkGiven p w e = none)
    (bare : ∀ fd, descriptor w e = some fd → c fd = none) : (effect p t w e).table t = t := by
  have absent : ∀ fd, descriptor w e = some fd → t fd = none := fun fd on => bareAbsent standing (bare fd on)
  cases e with
  | myOpen path flags given => rw [effect, opening, if_neg (plainPath plain), Effect.table]
  | myFopen path mode given => rw [effect, opening, if_neg (plainPath plain), Effect.table]
  | myClose fd => simp only [effect, closing, absent fd rfl, Effect.table]
  | myFclose stream =>
    cases on : w.streams stream with
    | none => simp only [effect, on, Effect.table]
    | some fd => simp only [effect, on, closing, absent fd on, Effect.table]
  | _ => rfl

theorem effectApk {e : Event} {given : Given} (apk : apkGiven p w e = some given) :
    (effect p t w e).table t = if zipOpens p given then Function.update t given.fd (some (newRecord p given)) else t := by
  rcases apkCases apk with ⟨path, flags, rfl, yes⟩ | ⟨path, mode, rfl, yes⟩
  · rw [effect, opening, if_pos yes]
    split <;> rfl
  · rw [effect, opening, if_pos yes]
    split <;> rfl

theorem performed {e : Event} {w' : World} (done : step p w e = .ok w') : ∃ a, perform p w e = .ok (a, w') := by
  rw [performStep] at done
  cases ran : perform p w e with
  | error fault =>
    rw [ran] at done
    cases done
  | ok r =>
    rw [ran] at done
    cases done
    exact ⟨r.1, rfl⟩

theorem standingApk (serves : Serves p.files p.data) (standing : Standing p c t w) {e : Event} {given : Given}
    (allowed : Allowed p w e) (apk : apkGiven p w e = some given) {a : Reply} {w' : World} (ran : perform p w e = .ok (a, w')) :
    Standing p (if zipOpens p given then Function.update c given.fd (some 0) else c)
      (if zipOpens p given then Function.update t given.fd (some (newRecord p given)) else t) w' := by
  cases opens : zipOpens p given with
  | true =>
    obtain ⟨z, there, opened⟩ := apkOpens serves apk opens
    rw [opened] at ran
    split at ran
    · cases ran
    · cases ran
      exact standingOpened standing (apkFree allowed apk) there
  | false =>
    rw [failedOpens serves allowed apk opens] at ran
    cases plain : libcCall w e with
    | error fault =>
      rw [plain] at ran
      cases ran
    | ok r =>
      rw [plain] at ran
      cases ran
      have zips : r.2.zips = w.zips := libcZips (a := r.1) plain
      exact standingFrame standing zips

theorem standingStep (serves : Serves p.files p.data) (inv : Inv p t w) (standing : Standing p c t w) {e : Event}
    (allowed : Allowed p w e) (asked : AsksAll p c w e) {w' : World} (done : step p w e = .ok w') :
    Standing p (c.after p w e) ((effect p t w e).table t) w' := by
  obtain ⟨a, ran⟩ := performed done
  unfold Cursors.after
  cases apk : apkGiven p w e with
  | some given =>
    rw [effectApk apk]
    exact standingApk serves standing allowed apk ran
  | none =>
    by_cases bare : ∀ fd, descriptor w e = some fd → c fd = none
    · rw [bareCalls inv standing apk bare] at ran
      have stays := standingFrame standing (libcZips ran)
      rw [effectBare standing apk bare]
      cases on : descriptor w e with
      | none => exact stays
      | some fd =>
        dsimp only
        rw [bare fd on]
        exact stays
    · simp only [not_forall] at bare
      obtain ⟨fd, on, here⟩ := bare
      obtain ⟨pos, here⟩ := Option.ne_none_iff_exists'.mp here
      obtain ⟨last, answered, _, stands⟩ := handleAnswers serves inv standing on here (asked fd pos on here)
      rw [answered] at ran
      cases ran
      simp only [on, here]
      exact stands

theorem ranStanding (serves : Serves p.files p.data) (ran : Ran p c t w) : Standing p c t w := by
  induction ran with
  | start fresh => exact ⟨fun _ _ => rfl, fun fd r bad => by cases bad⟩
  | call before allowed saved asked done ih => exact standingStep serves (reachedInv (ranReached before)) ih allowed asked done

theorem cursorsServed (serves : Serves p.files p.data) (ran : Ran p c t w) : Serving p c t w := by
  have inv := reachedInv (ranReached ran)
  have standing := ranStanding serves ran
  refine ⟨fun fd => ⟨fun open_ => ?_, fun entry => ?_⟩, fun fd pos here => ?_, ?_,
    fun e given allowed apk fails => failedOpens serves allowed apk fails, ?_, fun e plain bare => bareCalls inv standing plain bare⟩
  · obtain ⟨pos, here⟩ := Option.isSome_iff_exists.mp open_
    obtain ⟨r, _, entry, _⟩ := standsAt standing here
    rw [entry]
    rfl
  · obtain ⟨r, entry⟩ := Option.isSome_iff_exists.mp entry
    obtain ⟨pos, _, here, _⟩ := standing.stands fd r entry
    rw [here]
    rfl
  · obtain ⟨_, _, _, _, there⟩ := standsAt standing here
    rw [virtualLength serves]
    exact there.inside
  · intro e given apk opens granted
    obtain ⟨z, _, opened⟩ := apkOpens serves apk opens
    rw [granted] at opened
    exact ⟨_, opened, fun fd away => createdElsewhere given z away⟩
  · intro e fd pos on here asks
    obtain ⟨w', answered, aside, _⟩ := handleAnswers serves inv standing on here asks
    exact ⟨w', answered, aside⟩

end

/- One open of the APK with shared memory, and a read of two bytes through it. -/
def sharedProcess : Process :=
  ⟨true, [], ⟨0, 0⟩, ⟨1, 1⟩, fun node => if node = 1 then ⟨1, 1⟩ else ⟨0, 0⟩, ShadowStream.sampleFiles, ShadowStream.sampleTable⟩

def openedOnce : World := nextWorld sharedProcess apkOnly (openApk firstGiven)
def readTwo : Event := .myRead 3 (fun _ => 0) 2
def readOnce : World := nextWorld sharedProcess openedOnce readTwo

def cursorOnce : Cursors :=
  Cursors.after sharedProcess (Cursors.after sharedProcess (fun _ => none) apkOnly (openApk firstGiven)) openedOnce readTwo

theorem sampleHandle : ∃ w', perform sharedProcess readOnce readTwo = .ok (.filled 2 (store (fun _ => 0) 0 [4, 5]), w') ∧
    Aside cursorOnce readOnce w' := by
  have fresh : Fresh sharedProcess apkOnly :=
    ⟨fun _ => rfl, fun _ => rfl, rfl, (fun _ _ bad => by cases bad), (fun filed => by cases filed)⟩
  have allowed : Allowed sharedProcess apkOnly (openApk firstGiven) :=
    ⟨⟨by decide, rfl, apkUnused (by decide), by decide, rfl, by decide, rfl, by decide, rfl, by decide⟩, fun _ => by decide⟩
  have opened := Ran.call (.start fresh) allowed (fun _ filed => by cases filed) (fun _ _ on => by cases on)
    (stepNext (by decide +kernel))
  have read := Ran.call opened (e := readTwo) trivial trivial ?_ (stepNext (by decide +kernel))
  · exact (cursorsServed ShadowStream.sampleServes read).answers readTwo 3 2 rfl (by decide +kernel) ⟨by decide, by decide⟩
  · intro fd pos on here
    cases on
    cases here
    exact ⟨by decide, by decide⟩

end Bootstrap.FileMapping
