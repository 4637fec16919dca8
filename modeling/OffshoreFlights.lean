import OffshoreFlights.Proofs.ColumnGeneration.Convergence
import OffshoreFlights.Proofs.ColumnGeneration.Order
import OffshoreFlights.Proofs.ColumnGeneration.Solution
import OffshoreFlights.Proofs.Itinerary.Filling
import OffshoreFlights.Proofs.LocationSet.Edits
import OffshoreFlights.Proofs.Lp.Changes
import OffshoreFlights.Proofs.Lp.Lockstep
import OffshoreFlights.Proofs.Lp.Verdicts
import OffshoreFlights.Proofs.Planner
import OffshoreFlights.Proofs.Problem.Admission
import OffshoreFlights.Proofs.Rounding.Bound
import OffshoreFlights.Proofs.Rounding.Counts
import OffshoreFlights.Proofs.Rounding.Distinct
import OffshoreFlights.Proofs.Rounding.LeftOut
import OffshoreFlights.Proofs.Tour.Arrangement.Succession
import OffshoreFlights.Proofs.Tour.Directions
import OffshoreFlights.Proofs.Tour.Effort
import OffshoreFlights.Proofs.Tour.Turns
import OffshoreFlights.Random.ChaCha
