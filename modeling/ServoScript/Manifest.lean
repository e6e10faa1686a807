import ServoScript.Layout
import ServoScript.Yaml.Scalar

/-!
# Manifests

What has to be known beside the image in order to load it: the model, the checksum, the size and the
table of subroutines, written as a YAML document.
-/

namespace ServoScript

/-- A subroutine with its command byte and its address. -/
structure ManifestEntry where
  name : String
  command : Byte
  address : Word

structure Manifest where
  profile : Profile
  checksum : Word
  size : Nat
  subroutines : List ManifestEntry

def Program.manifest (p : Program) : Manifest where
  profile := p.profile
  checksum := p.checksum
  size := p.image.length
  subroutines := p.commands.entries.map fun (name, command) =>
    ⟨name, command.byte, p.addressOf name⟩

def ManifestEntry.render (e : ManifestEntry) : String :=
  "- " ++ Yaml.field 1 "name" e.name ++
    s!"  command: {e.command.toNat}\n  address: {e.address.toNat}\n"

def Manifest.render (m : Manifest) : String :=
  let subroutines :=
    if m.subroutines.isEmpty then "subroutines: []\n"
    else "subroutines:\n" ++ String.join (m.subroutines.map ManifestEntry.render)
  s!"profile: {m.profile.name}\ncrc: {m.checksum.toNat}\nsize: {m.size}\n" ++ subroutines

end ServoScript
