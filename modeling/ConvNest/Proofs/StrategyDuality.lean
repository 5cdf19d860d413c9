/-
# The two strategies are dual

Exchange the output channels of a problem with its windows, and the sides of the microkernel: the
filter tiles become the input tiles (`ofMicrokernel_swap`).  What keeping the inputs means for one
problem is then what keeping the weights means for the other one.  Every function of the analysis
that asks for the strategy has its equation here, and each of them holds for words that wrap around.
-/
import ConvNest.Proofs.CacheFit

namespace ConvNest.Schedule

/-- The strategy that keeps the other operand. -/
def Strategy.dual : Strategy → Strategy
  | inputStationary => weightStationary
  | weightStationary => inputStationary
  | other n => other n

/-- The microkernel with its sides exchanged. -/
def Microkernel.swap (k : Microkernel) : Microkernel := ⟨k.windows, k.filters⟩

/-- Two problems that differ only by exchanging the output channels with the windows. -/
structure Problem.Exchanges (p q : Problem) : Prop where
  outChannels : q.outChannels = p.windows
  windows : q.windows = p.outChannels
  rest : q = { p with outChannels := q.outChannels, output := q.output }

namespace Problem.Exchanges

variable {p q : Problem}

variable (h : p.Exchanges q)

include h

theorem inChannels : q.inChannels = p.inChannels := by rw [h.rest]

theorem filterArea : q.filterArea = p.filterArea := by rw [h.rest]; rfl

theorem elementSize : q.elementSize = p.elementSize := by rw [h.rest]

theorem withDefaults : p.withDefaults.Exchanges q.withDefaults where
  outChannels := h.outChannels
  windows := h.windows
  rest := congrArg Problem.withDefaults h.rest

/-- A fixed microkernel is cut to the sides of either problem alike. -/
theorem clamp (k : Microkernel) : k.swap.clamp q = (k.clamp p).swap := by
  simp only [Microkernel.clamp, Microkernel.swap, h.outChannels, h.windows]

end Problem.Exchanges

namespace Footprint

variable {p q : Problem} {s : Strategy}

/-- The footprint with the operands exchanged. -/
def swap (f : Footprint) : Footprint :=
  { input := f.filter
    filter := f.input
    output := f.output
    inputTiles := f.filterTiles
    filterTiles := f.inputTiles }

theorem ofMicrokernel_swap (h : p.Exchanges q) (k : Microkernel) :
    ofMicrokernel q k.swap = (ofMicrokernel p k).swap := by
  simp only [ofMicrokernel, swap, Microkernel.swap, Microkernel.outputs, h.filterArea,
    h.elementSize, h.outChannels, h.windows, Int64.mul_comm k.windows k.filters]

section

variable (f : Footprint)

theorem swap_withChannels (c : Int64) : f.swap.withChannels c = (f.withChannels c).swap := rfl

theorem l1_swap : f.swap.l1 = f.l1 := by
  funext channels
  simp only [l1, swap, Int64.add_comm (f.filter * channels)]

theorem multiplied_swap (hs : s.valid) : f.swap.multiplied s.dual = f.multiplied s := by
  cases s with
  | other n => cases hs
  | _ => rfl

theorem roles_swap (hs : s.valid) : f.swap.roles s.dual = f.roles s := by
  cases s with
  | other n => cases hs
  | _ => rfl

theorem l2_swap (hs : s.valid) : f.swap.l2 s.dual = f.l2 s := by
  funext k2
  cases s with
  | inputStationary => simp only [l2, swap, Strategy.dual, Int64.add_comm (k2 * f.filter)]
  | weightStationary => simp only [l2, swap, Strategy.dual, Int64.add_comm f.filter]
  | other n => cases hs

theorem l3_swap (hs : s.valid) (k2 : Int64) : f.swap.l3 s.dual k2 = f.l3 s k2 := by
  funext k3
  cases s with
  | inputStationary => simp only [l3, swap, Strategy.dual, Int64.add_comm (k2 * f.filter)]
  | weightStationary => simp only [l3, swap, Strategy.dual, Int64.add_comm (k3 * f.filter)]
  | other n => cases hs

/-- The first accesses are a sum over both operands, and all others depend on the roles. -/
theorem traffic_swap (a : Arch) (hs : s.valid) (k2 k3 blocks : Int64) :
    f.swap.traffic a s.dual k2 k3 blocks = f.traffic a s k2 k3 blocks := by
  have hsum : f.swap.inputTiles * f.swap.input + f.swap.filterTiles * f.swap.filter =
      f.inputTiles * f.input + f.filterTiles * f.filter := Int64.add_comm ..
  simp only [traffic, roles_swap f hs, hsum]

end

theorem accesses_swap (h : p.Exchanges q) (f : Footprint) (a : Arch) (hs : s.valid)
    (k2 k3 c : Int64) :
    f.swap.accesses q a s.dual k2 k3 c = f.accesses p a s k2 k3 c := by
  have hsteps : steps q = steps p := by
    simp only [steps, h.outChannels, h.windows, h.filterArea, h.inChannels,
      Int64.mul_comm p.windows]
  have houtputs : q.outChannels * q.windows = p.outChannels * p.windows := by
    rw [h.outChannels, h.windows, Int64.mul_comm]
  have hrows (depth : Int64) : q.windows * depth + q.outChannels * depth =
      p.windows * depth + p.outChannels * depth := by
    rw [h.outChannels, h.windows, Int64.add_comm]
  simp only [accesses, traffic_swap f a hs, withHits, withReloads, hsteps, houtputs, hrows,
    h.inChannels, h.filterArea, h.elementSize]

end Footprint

namespace Analyzer

variable {z z' : Analyzer} {p q : Problem} {s : Strategy}

theorem decide_dual (h : p.Exchanges q) (harch : z'.arch = z.arch) (hs : s.valid) (k : Microkernel)
    (k2 k3 c : Int64) :
    z'.decide q k.swap s.dual k2 k3 c = { z.decide p k s k2 k3 c with strategy := s.dual } := by
  simp only [decide, Footprint.ofMicrokernel_swap h, Footprint.swap_withChannels,
    Footprint.multiplied_swap _ hs, Footprint.accesses_swap h _ _ hs, harch, h.inChannels]

section

variable (h : p.Exchanges q) (harch : z'.arch = z.arch) (hheur : z'.heuristic = z.heuristic)
  (hs : s.valid) (k : Microkernel)

include h harch hheur hs

/-- The three searches are the same ones. -/
theorem fitting?_dual : z'.fitting? q k.swap s.dual = z.fitting? p k s := by
  simp only [fitting?, Footprint.ofMicrokernel_swap h, Footprint.swap_withChannels,
    Footprint.l1_swap, Footprint.multiplied_swap _ hs, Footprint.l2_swap _ hs,
    Footprint.l3_swap _ hs, harch, hheur, h.inChannels]

theorem evaluate_dual :
    z'.evaluate q k.swap s.dual = { z.evaluate p k s with strategy := s.dual } := by
  simp only [evaluate, fitting?_dual h harch hheur hs, decide_dual h harch hs, h.inChannels]
  split <;> rfl

end

/-- **The schedule that keeps the inputs is, for the exchanged problem, the one that keeps the
weights**, and the other way round.  The footprint, the searches, the counts and the cost ask for
the strategy only to tell the staying tiles from the streamed ones, and the exchange turns the ones
into the others.  No sum has to be exact, since both sides compute the same words. -/
theorem candidates_dual {a : Arch} {h : Heuristic} {k : Microkernel} (hpq : p.Exchanges q)
    (ha : a.validate = .ok ()) (hk : 0 < k.filters ∧ 0 < k.windows)
    (hp : p.withDefaults.validate = .ok ()) (hq : q.withDefaults.validate = .ok ()) :
    ∃ c c', candidates ⟨a, h, some k⟩ p = .ok c ∧ candidates ⟨a, h, some k.swap⟩ q = .ok c' ∧
      c'.microkernel = c.microkernel.swap ∧
      c'.weightStationary = { c.inputStationary with strategy := .weightStationary } ∧
      c'.inputStationary = { c.weightStationary with strategy := .inputStationary } := by
  have hclamp := hpq.withDefaults.clamp k
  refine ⟨_, _, candidates_eq hp ha ?_, candidates_eq hq ha ?_, hclamp, ?_, ?_⟩
  · rintro _ ⟨⟩
    exact hk
  · rintro _ ⟨⟩
    exact hk.symm
  · refine (congrArg (evaluate _ _ · _) hclamp).trans ?_
    exact evaluate_dual (s := .inputStationary) hpq.withDefaults rfl rfl rfl _
  · refine (congrArg (evaluate _ _ · _) hclamp).trans ?_
    exact evaluate_dual (s := .weightStationary) hpq.withDefaults rfl rfl rfl _

/-- Eleven filters over six by seven windows, against forty-two filters over eleven windows. -/
theorem candidates_dual_uneven :
    ∃ c c', candidates ⟨tightAnalyzer.arch, .binary, some ⟨4, 8⟩⟩ unevenProblem = .ok c ∧
      candidates ⟨tightAnalyzer.arch, .binary, some ⟨8, 4⟩⟩
        { unevenProblem with outChannels := 42, output := ⟨1, 11⟩ } = .ok c' ∧
      c'.weightStationary.cost = c.inputStationary.cost ∧
      c'.inputStationary.cost = c.weightStationary.cost := by
  obtain ⟨c, c', hc, hc', -, hwt, hin⟩ := candidates_dual (a := tightAnalyzer.arch) (h := .binary)
    (k := ⟨4, 8⟩) (p := unevenProblem)
    (q := { unevenProblem with outChannels := 42, output := ⟨1, 11⟩ })
    ⟨by decide, by decide, rfl⟩ rfl ⟨by decide, by decide⟩ rfl rfl
  exact ⟨c, c', hc, hc', by rw [hwt], by rw [hin]⟩

end Analyzer

end ConvNest.Schedule
