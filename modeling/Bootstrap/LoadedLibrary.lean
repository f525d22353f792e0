import Bootstrap.LastActivation

/-! The hook of dlopen, and the code that it comes to load. -/
namespace Bootstrap.UseDataDir
open CInt ByteLayout ShadowZip UserDb FileStore

def libil2cpp : Bytes := text "libil2cpp.so"

/-- A longer name that ends like the library's is taken for a path to it. -/
def Redirected (filename : Bytes) : Prop := libil2cpp.length < filename.length ∧ libil2cpp <:+ filename

instance (filename) : Decidable (Redirected filename) := by unfold Redirected; infer_instance

section
variable (dataDir : Bytes)

def linkFile : Bytes := snprintf256 (join dataDir libil2cpp)

def openedPath (filename : Bytes) : Bytes := if Redirected filename then linkFile dataDir else filename

/- The content that is loaded. -/
def myDlopen (s : Files) (filename : Bytes) : Option Bytes := s (openedPath dataDir filename)

end

section
variable {dataDir : Bytes}

theorem startSeesLibrary {boot : Boot} {s s' : Files} {record : Record}
    (starts : extractPatchInfo dataDir boot s = (s', some record)) : (s' (linkFile dataDir)).isSome := by
  rw [extractPatchInfo] at starts
  split at starts
  · cases starts
  split at starts
  · cases starts
  split at starts
  · cases starts
  split at starts
  · cases starts
  split at starts
  · cases starts
  dsimp only at starts
  split at starts
  · rename_i there
    cases starts
    exact there
  · cases starts

end

/- The only activation ships the library. -/
def shipOnce : List Event := [.activate (shippingCall [47, 112])]

def loadedStart : Files × Option Record := extractPatchInfo [47, 100] sampleBoot (activated shipOnce).files

end Bootstrap.UseDataDir
