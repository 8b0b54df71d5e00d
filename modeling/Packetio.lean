import Packetio.Mlx5.Ring.TxStall
import Packetio.Mlx5.Ring.TxDecode
import Packetio.Mlx5.Steering
import Packetio.Dpdk.Steering
import Packetio.Afpacket.RingPackets
import Packetio.Mlx5.ClockLaps
import Packetio.Mlx5.Ring.TxIdle
import Packetio.Mlx5.QueueReady
import Packetio.FailedQueues
import Packetio.Netstack.Endpoint
import Packetio.Netstack.Receive
import Packetio.ReceiveBatches
import Packetio.Afpacket.QueueFrames
import Packetio.Mlx5.DeviceShares
import Packetio.Dpdk.DeviceShares
import Packetio.Dpdk.TransmitRequests
import Packetio.Dpdk.ReceiveChains
import Packetio.Dpdk.RxQueueRuns
import Packetio.Netstack.NeighborCache
import Packetio.Afxdp.Steering
import Packetio.Afxdp.SendFunc
import Packetio.PollClose
import Packetio.Afpacket.CsumExact
import Packetio.Afpacket.RxMetadata
import Packetio.Netstack.NeighborRate
import Packetio.Affinity
import Packetio.PackedCPUs
import Packetio.Netstack.RxLoop
import Packetio.Netstack.EndpointClose
import Packetio.DescChecks
import Packetio.Mlx5.WqeCover
import Packetio.Dpdk.RingFifo
