import StrongMotion.Header.Items

/-!
# The parts of a header

Every item of a header has a part of it to fill.  `HeaderItem.transfer` moves an item's part from
one header to another.  The parts do not overlap (`transfer_transfer_of_ne`), and with the network
they are the whole header (`foldr_transfer`).
-/

namespace StrongMotion
namespace HeaderItem

/-- The header `target` with the item's part taken from `source`. -/
def transfer (item : HeaderItem) (source target : Header) : Header :=
  match item with
  | originTime => { target with event.origin := source.event.origin }
  | eventLatitude => { target with event.latitude := source.event.latitude }
  | eventLongitude => { target with event.longitude := source.event.longitude }
  | eventDepth => { target with event.depthKm := source.event.depthKm }
  | magnitude => { target with event.magnitude := source.event.magnitude }
  | stationCode =>
    { target with station.code := source.station.code, station.location := source.station.location }
  | stationLatitude => { target with station.latitude := source.station.latitude }
  | stationLongitude => { target with station.longitude := source.station.longitude }
  | stationHeight => { target with station.elevationM := source.station.elevationM }
  | recordTime => { target with recording.start := source.recording.start }
  | samplingRate => { target with recording.rate := source.recording.rate }
  | duration => { target with recording.durationS := source.recording.durationS }
  | direction => { target with recording.channel := source.recording.channel }
  | scaleFactor => { target with recording.calibration := source.recording.calibration }
  | peakAcceleration => { target with recording.peak := source.recording.peak }
  | lastCorrection => { target with recording.lastCorrection := source.recording.lastCorrection }
  | memo => { target with recording.comment := source.recording.comment }

theorem network_transfer (item : HeaderItem) (source target : Header) :
    (item.transfer source target).station.network = target.station.network := by
  cases item <;> rfl

theorem transfer_self (item : HeaderItem) (h : Header) : item.transfer h h = h := by
  cases item <;> rfl

theorem transfer_transfer_self (item : HeaderItem) (source h target : Header) :
    item.transfer (item.transfer source h) target = item.transfer source target := by
  cases item <;> rfl

/-- No item's part overlaps another's. -/
theorem transfer_transfer_of_ne {item other : HeaderItem} (hne : item ≠ other)
    (source h target : Header) :
    item.transfer (other.transfer source h) target = item.transfer h target := by
  cases item <;> cases other <;> first | exact absurd rfl hne | rfl

/-- The parts of all items and the network are the whole of a header. -/
theorem foldr_transfer {h h' : Header} (hnetwork : h.station.network = h'.station.network) :
    inOrder.foldr (fun item acc => item.transfer h acc) h' = h := by
  show { h with station.network := h'.station.network } = h
  rw [← hnetwork]

theorem eq_of_transfer_eq {h h' : Header} (hnetwork : h.station.network = h'.station.network)
    (hagree : ∀ item : HeaderItem, item.transfer h h' = h') : h = h' := by
  have hfold : ∀ items : List HeaderItem,
      items.foldr (fun item acc => item.transfer h acc) h' = h' := by
    intro items
    induction items with
    | nil => rfl
    | cons item items ih => rw [List.foldr_cons, ih, hagree]
  rw [← foldr_transfer hnetwork, hfold]

/-- Headers that agree in every other part differ at most in the item's own. -/
theorem transfer_eq_of_agree {item : HeaderItem} {h h' : Header}
    (hnetwork : h.station.network = h'.station.network)
    (hagree : ∀ other, other ≠ item → other.transfer h h' = h') : item.transfer h' h = h' := by
  refine eq_of_transfer_eq ((network_transfer item h' h).trans hnetwork) fun other => ?_
  by_cases hother : other = item
  · subst hother
    rw [transfer_transfer_self, transfer_self]
  · rw [transfer_transfer_of_ne hother, hagree other hother]

end HeaderItem
end StrongMotion
