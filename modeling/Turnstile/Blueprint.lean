import Turnstile.Machine.Basic

/-!
Blueprints: charts that know how their machines are made.

A blueprint that is derived from another has the same chart and the same way of
making machines; both may then be changed without the other.
-/

namespace Turnstile

/-- A chart, and how machines on a chart are made. -/
structure Blueprint (σ ε : Type) where
  chart : Chart σ ε
  factory : Chart σ ε → Except Fault (Machine σ ε)

namespace Blueprint

variable {σ ε : Type}

def empty : Blueprint σ ε := { chart := Chart.empty, factory := Chart.start }

/-- A blueprint derived from this one, which starts with all that this one has. -/
def inherit (b : Blueprint σ ε) : Blueprint σ ε := { chart := b.chart, factory := b.factory }

def setFactory (b : Blueprint σ ε) (factory : Chart σ ε → Except Fault (Machine σ ε)) :
    Blueprint σ ε :=
  { b with factory }

def instantiate (b : Blueprint σ ε) : Except Fault (Machine σ ε) := b.factory b.chart

end Blueprint
end Turnstile
