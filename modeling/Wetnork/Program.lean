import Wetnork.Address.Text
import Wetnork.Ipc.RoundTrip

/-! `main`: the text of an address is parsed, serialized and written out. -/
namespace Wetnork.Program

open Ipc (Hooks serialize)
open IPAddress (Storage Fault Denotes cStr)

variable {order : ByteOrder} {memory : Storage} {addr : List Char} {data : List (Option UInt8)}

/-- What `main` passes to `write`, for any text in the place of its literal. The addresses are
constructed in memory that held `memory`. -/
def main (order : ByteOrder) (memory : Storage) (addr : List Char) :
    Except Fault (List (Option UInt8)) := do
  let ip ← IPAddress.parse memory addr
  match serialize ((Hooks.ipAddress order memory).serialize ip) with
  | some p => return p.data.take p.length
  | none => return []

theorem main_of_parse {ip : IPAddress} (h : IPAddress.parse memory addr = .ok ip) :
    main order memory addr = .ok ((ip.family.toInt order ++ ip.native).map some) := by
  simp only [main, h, Hooks.serialize_ipAddress]
  change Except.ok _ = _
  rw [List.take_of_length_le (by simp)]

theorem parse_of_main (h : main order memory addr = .ok data) :
    ∃ ip, IPAddress.parse memory addr = .ok ip ∧
      data = (ip.family.toInt order ++ ip.native).map some := by
  cases hp : IPAddress.parse memory addr with
  | error fault =>
    rw [main, hp] at h
    cases h
  | ok ip =>
    rw [main_of_parse hp] at h
    exact ⟨ip, rfl, (Except.ok.inj h).symm⟩

theorem native_of_denotes {family : AddressFamily} {text : List Char} {bytes : Bytes}
    (h : Denotes family text bytes) : (IPAddress.construct memory family bytes).native = bytes := by
  cases family with
  | ipv4 => exact IPAddress.native_construct_ipv4 memory h.1
  | ipv6 => exact IPAddress.native_construct_ipv6 memory (Inet.measured_denotes h).2.2.2

/-- The output tells addresses apart that are not equal, and no others. -/
theorem main_eq_iff {other : Storage} {text : List Char} {ip ip' : IPAddress}
    (h : IPAddress.parse memory addr = .ok ip) (h' : IPAddress.parse other text = .ok ip') :
    main order memory addr = main order other text ↔ ip.equal ip' := by
  rw [main_of_parse h, main_of_parse h', Except.ok.injEq,
    List.map_inj_right fun _ _ => Option.some.inj, IPAddress.equal_iff]
  constructor
  · intro heq
    obtain ⟨hfamily, hnative⟩ := List.append_inj heq (by simp)
    exact ⟨AddressFamily.toInt_inj hfamily, hnative⟩
  · rintro ⟨hfamily, hnative⟩
    rw [hfamily, hnative]

/-- For every text: what is written is the family and the address that the text denotes, and
nothing of what was in memory before. The text of the parsed address gives the same output, and so
do all texts of an equal address and no others. -/
theorem output_denotes (order : ByteOrder) (memory : Storage) (addr : List Char)
    (data : List (Option UInt8)) :
    (main order memory addr = .ok data ↔
      ∃ family bytes, (family = .ipv6 ↔ ':' ∈ addr) ∧ Denotes family (cStr addr) bytes ∧
        data = (family.toInt order ++ bytes).map some) ∧
    ∀ ip, IPAddress.parse memory addr = .ok ip → ∀ other : Storage,
      (∃ text, ip.str = some text ∧ main order other text = main order memory addr) ∧
      ∀ text ip', IPAddress.parse other text = .ok ip' →
        (main order memory addr = main order other text ↔ ip.equal ip') := by
  refine ⟨⟨fun h => ?_, ?_⟩, fun ip hp other => ⟨?_, fun text ip' hp' => main_eq_iff hp hp'⟩⟩
  · obtain ⟨ip, hp, rfl⟩ := parse_of_main h
    obtain ⟨hf, hd, -⟩ := IPAddress.denotes_of_parse hp
    exact ⟨ip.family, ip.native, hf, hd, rfl⟩
  · rintro ⟨family, bytes, hf, hd, rfl⟩
    rw [main_of_parse (IPAddress.parse_of_denotes hf hd), native_of_denotes hd]
    rfl
  · obtain ⟨text, hstr, -⟩ := IPAddress.str_denotes ip
    obtain ⟨again, hagain, heq⟩ := IPAddress.parse_str other hstr
    exact ⟨text, hstr, (main_eq_iff hagain hp).mpr heq⟩

end Wetnork.Program
