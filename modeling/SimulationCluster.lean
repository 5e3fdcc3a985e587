import SimulationCluster.Transition
import SimulationCluster.ByteText
import SimulationCluster.Ledger
import SimulationCluster.LastWrite
import SimulationCluster.Broadcast
import SimulationCluster.ClientThreads
import SimulationCluster.ClientFlags
import SimulationCluster.SimulationRounds
import SimulationCluster.SimulationCall
import SimulationCluster.StopCommand
import SimulationCluster.CommandMachine
import SimulationCluster.ClientProgress
import SimulationCluster.PausedStop
import SimulationCluster.WorkerExit
import SimulationCluster.WorkerStranded
import SimulationCluster.ClientCommands
import SimulationCluster.ClientRest
import SimulationCluster.ClientWork
import SimulationCluster.ClientPace
import SimulationCluster.TaskSystem
import SimulationCluster.TaskCustody
import SimulationCluster.TaskConservation
import SimulationCluster.TaskExchange
import SimulationCluster.TaskOrder
import SimulationCluster.TaskDelivery
import SimulationCluster.HeartbeatText
import SimulationCluster.HeartbeatReceiver
import SimulationCluster.HeartbeatTable
import SimulationCluster.HeartbeatAcceptance
import SimulationCluster.SignalText
import SimulationCluster.ServerClock
import SimulationCluster.HeartbeatSystem
import SimulationCluster.OperatorLoop
import SimulationCluster.Cluster
import SimulationCluster.ClusterCommands
import SimulationCluster.Deployment
